import Dotlang.Proofs.Braces
import Dotlang.Proofs.Ledgers
import Dotlang.Proofs.RoundTrip

/-!
# Phrases

The grammar as a set of token lists. It leaves open what stands in the parentheses of calls, of headings and behind the
condition of a counting loop, which only the trees of programs depend on.

* `Phrase` : the token lists of statements, blocks and programs;
* `BodySpelled.phrase` : among them every list that spells a tree;
* `Flat` : the token lists without blocks and `last` loops;
* `unfinished` : how many `last` loops have lost what ends them;
* `Complete` : the token lists that are balanced and have no unfinished loop;
* `Phrase.complete`, `Phrase.first` : phrases are complete, and a statement does not go on the one before it.
-/

namespace Dotlang

/-! ## Phrases -/

/-- What may stand in the parentheses of a call, of a heading and behind the condition of a counting loop. -/
def Token.isListed (t : Token) : Bool :=
  t.kind.isOperand || t.kind = .operator || t.kind = .assign || t.kind = .dataType || t.kind = .comma

inductive Nonterminal where
  | statement | statements | block | alternatives

/-- The grammar. Lists of arguments, lists of parameters and steps are any listed tokens in any order. -/
inductive Phrase : Nonterminal → List Token → Prop where
  | block {l r : Token} {ts : List Token} (hl : l.kind = .lcurly) (h : Phrase .statements ts) (hr : r.kind = .rcurly) :
      Phrase .block (l :: (ts ++ [r]))
  | nil : Phrase .statements []
  | cons {ts us : List Token} (hs : Phrase .statement ts) (h : Phrase .statements us) : Phrase .statements (ts ++ us)
  | done : Phrase .alternatives []
  | otherwise {t : Token} {ts : List Token} (ht : t.keyword? = some .naioye) (h : Phrase .block ts) :
      Phrase .alternatives (t :: ts)
  | branch {c : Chain} {t : Token} {ts us vs : List Token} (ht : t.keyword? = some .chaloye)
      (hc : ConditionSpelled c ts) (h : Phrase .block us) (hrest : Phrase .alternatives vs) :
      Phrase .alternatives (t :: (ts ++ (us ++ vs)))
  | inner {ts : List Token} (h : Phrase .block ts) : Phrase .statement ts
  | declaration {d : Declaration} {ts : List Token} (h : d.Spelled ts) : Phrase .statement ts
  | assignment {c : Chain} {t eq semi : Token} {ts : List Token} (ht : t.kind = .identifier) (heq : eq.kind = .assign)
      (hc : c.Spelled ts) (hsemi : semi.kind = .semicolon) : Phrase .statement (t :: eq :: (ts ++ [semi]))
  | call {t l r semi : Token} {ts : List Token}
      (ht : t.kind = .identifier ∨ ∃ k ∈ Keyword.callable, t.keyword? = some k) (hl : l.kind = .lparen)
      (hts : ∀ u ∈ ts, u.isListed = true) (hr : r.kind = .rparen) (hsemi : semi.kind = .semicolon) :
      Phrase .statement (t :: l :: (ts ++ [r, semi]))
  | leave {t semi : Token} (ht : t.keyword? = some .brk) (hsemi : semi.kind = .semicolon) : Phrase .statement [t, semi]
  | conditional {c : Chain} {t : Token} {ts us vs : List Token} (ht : t.keyword? = some .oye)
      (hc : ConditionSpelled c ts) (h : Phrase .block us) (ha : Phrase .alternatives vs) :
      Phrase .statement (t :: (ts ++ (us ++ vs)))
  | whileLoop {c : Chain} {t : Token} {ts us : List Token} (ht : t.keyword? = some .wish) (hc : ConditionSpelled c ts)
      (h : Phrase .block us) : Phrase .statement (t :: (ts ++ us))
  | doWhile {c : Chain} {t w semi : Token} {ts us : List Token} (ht : t.keyword? = some .last) (h : Phrase .block us)
      (hw : w.keyword? = some .wish) (hc : ConditionSpelled c ts) (hsemi : semi.kind = .semicolon) :
      Phrase .statement (t :: (us ++ w :: (ts ++ [semi])))
  | counting {d : Declaration} {c : Chain} {t l semi r : Token} {ds cs ss us : List Token}
      (ht : t.keyword? = some .first) (hl : l.kind = .lparen) (hd : d.Spelled ds) (hc : c.Spelled cs)
      (hsemi : semi.kind = .semicolon) (hss : ∀ u ∈ ss, u.isListed = true) (hr : r.kind = .rparen)
      (h : Phrase .block us) : Phrase .statement (t :: (l :: (ds ++ (cs ++ semi :: (ss ++ [r]))) ++ us))
  | function {t name l r : Token} {ts us : List Token} (ht : t.keyword? = some .ex) (hname : name.kind = .identifier)
      (hl : l.kind = .lparen) (hts : ∀ u ∈ ts, u.isListed = true) (hr : r.kind = .rparen) (h : Phrase .block us) :
      Phrase .statement (t :: (name :: l :: (ts ++ [r]) ++ us))

/-! ## Spelled trees -/

theorem isListed_of_isOperand {t : Token} (h : t.kind.isOperand = true) : t.isListed = true := by
  simp [Token.isListed, h]

theorem TermsSpelled.listed {terms : List (Operator × Operand)} {ts : List Token} (h : TermsSpelled terms ts) :
    ∀ t ∈ ts, t.isListed = true := by
  induction h with
  | nil => exact nofun
  | cons ht _ hb _ ih =>
    exact List.forall_mem_cons.mpr
      ⟨by simp [Token.isListed, ht], List.forall_mem_cons.mpr ⟨isListed_of_isOperand hb, ih⟩⟩

theorem Chain.Spelled.listed {c : Chain} {ts : List Token} (h : c.Spelled ts) : ∀ t ∈ ts, t.isListed = true := by
  obtain ⟨ht, hterms⟩ := h
  exact List.forall_mem_cons.mpr ⟨isListed_of_isOperand ht, hterms.listed⟩

theorem Argument.Spelled.listed {a : Argument} {ts : List Token} (h : a.Spelled ts) : ∀ t ∈ ts, t.isListed = true := by
  cases h with
  | value h => exact h.listed
  | type ht => exact List.forall_mem_singleton.mpr (by simp [Token.isListed, ht])

theorem ArgumentsSpelled.listed {args : List Argument} {ts : List Token} (h : ArgumentsSpelled args ts) :
    ∀ t ∈ ts, t.isListed = true := by
  induction h with
  | nil => exact nofun
  | one h => exact h.listed
  | cons h hcomma _ ih =>
    exact List.forall_mem_append.mpr ⟨h.listed, List.forall_mem_cons.mpr ⟨by simp [Token.isListed, hcomma], ih⟩⟩

theorem ParametersSpelled.listed {params : List String} {ts : List Token} (h : ParametersSpelled params ts) :
    ∀ t ∈ ts, t.isListed = true := by
  have hpair : ∀ {t name : Token}, t.kind = .dataType → name.kind = .identifier →
      t.isListed = true ∧ name.isListed = true := by
    intro t name ht hname
    exact ⟨by simp [Token.isListed, ht], isListed_of_isOperand (by rw [hname]; rfl)⟩
  induction h with
  | nil => exact nofun
  | one ht hname =>
    exact List.forall_mem_cons.mpr ⟨(hpair ht hname).1, List.forall_mem_singleton.mpr (hpair ht hname).2⟩
  | cons ht hname hcomma _ ih =>
    refine List.forall_mem_cons.mpr ⟨(hpair ht hname).1, List.forall_mem_cons.mpr ⟨(hpair ht hname).2, ?_⟩⟩
    exact List.forall_mem_cons.mpr ⟨by simp [Token.isListed, hcomma], ih⟩

theorem StepSpelled.listed {step : Option LoopStep} {ts : List Token} (h : StepSpelled step ts) :
    ∀ t ∈ ts, t.isListed = true := by
  have hname : ∀ {t : Token}, t.kind = .identifier → t.isListed = true :=
    fun ht => isListed_of_isOperand (by rw [ht]; rfl)
  cases h with
  | absent => exact nofun
  | assign ht heq h =>
    exact List.forall_mem_cons.mpr
      ⟨hname ht, List.forall_mem_cons.mpr ⟨by simp [Token.isListed, heq], h.listed⟩⟩
  | compound ht ho _ hb =>
    refine List.forall_mem_cons.mpr ⟨hname ht, List.forall_mem_cons.mpr ⟨by simp [Token.isListed, ho], ?_⟩⟩
    exact List.forall_mem_singleton.mpr (isListed_of_isOperand hb)

mutual

theorem Statement.Spelled.phrase {s : Statement} {ts : List Token} (h : s.Spelled ts) : Phrase .statement ts :=
  match h with
  | .block h => .inner h.phrase
  | .declare h => .declaration h
  | .assign ht heq h hsemi => .assignment ht heq h hsemi
  | .userCall ht hl h hr hsemi => .call (Or.inl ht) hl h.listed hr hsemi
  | .builtinCall hk ht hl h hr hsemi => .call (Or.inr ⟨_, hk, ht⟩) hl h.listed hr hsemi
  | .function ht hname hl hparams hr h => by
    have hphrase := Phrase.function ht hname hl hparams.listed hr h.phrase
    simpa using hphrase
  | .conditional ht hc h ha => .conditional ht hc h.phrase ha.phrase
  | .whileLoop ht hc h => .whileLoop ht hc h.phrase
  | .doWhile ht h hw hc hsemi => .doWhile ht h.phrase hw hc hsemi
  | .counting ht hl hd hc hsemi hstep hr h => by
    have hphrase := Phrase.counting ht hl hd hc hsemi hstep.listed hr h.phrase
    simpa using hphrase
  | .brk ht hsemi => .leave ht hsemi

/-- A program that spells a tree is a phrase. -/
theorem BodySpelled.phrase {body : List Statement} {ts : List Token} (h : BodySpelled body ts) :
    Phrase .statements ts :=
  match h with
  | .nil => .nil
  | .cons hs h => .cons hs.phrase h.phrase

theorem BlockSpelled.phrase {body : List Statement} {ts : List Token} (h : BlockSpelled body ts) : Phrase .block ts :=
  match h with
  | .mk hl h hr => .block hl h.phrase hr

theorem Alternatives.Spelled.phrase {a : Alternatives} {ts : List Token} (h : a.Spelled ts) : Phrase .alternatives ts :=
  match h with
  | .done => .done
  | .otherwise ht h => .otherwise ht h.phrase
  | .branch ht hc h hrest => .branch ht hc h.phrase hrest.phrase

end

/-! ## Tokens without blocks and loops -/

/-- The kinds of tokens that are no braces and no reserved words. -/
def TokenKind.isPlain : TokenKind → Bool
  | keyword | lcurly | rcurly => false
  | _ => true

/-- The token opens or closes no block, and begins no `last` loop. -/
def Token.isFlat (t : Token) : Prop := t.isBrace = false ∧ t.keyword? ≠ some .last

theorem flat_token {t : Token} {kind : TokenKind} (h : t.kind = kind) (hkind : kind.isPlain = true) : t.isFlat := by
  subst h
  refine ⟨Token.isBrace_of_kind rfl ?_ ?_, fun hlast => ?_⟩
  · intro h
    simp [h, TokenKind.isPlain] at hkind
  · intro h
    simp [h, TokenKind.isPlain] at hkind
  · simp [Read.kind_of_keyword? hlast, TokenKind.isPlain] at hkind

theorem flat_keyword {t : Token} {k : Keyword} (h : t.keyword? = some k) (hk : k ≠ .last) : t.isFlat := by
  refine ⟨Token.isBrace_of_kind (Read.kind_of_keyword? h) (by decide) (by decide), fun hlast => hk ?_⟩
  rw [h] at hlast
  exact Option.some.inj hlast

theorem flat_operand {t : Token} (h : t.kind.isOperand = true) : t.isFlat := by
  refine flat_token rfl ?_
  cases hkind : t.kind <;> simp_all [TokenKind.isOperand, TokenKind.isPlain]

def Flat (ts : List Token) : Prop := ∀ t ∈ ts, t.isFlat

theorem flat_of_listed {ts : List Token} (h : ∀ t ∈ ts, t.isListed = true) : Flat ts := by
  intro t ht
  have hlisted := h t ht
  simp only [Token.isListed, Bool.or_eq_true, decide_eq_true_eq] at hlisted
  obtain (((hoperand | hkind) | hkind) | hkind) | hkind := hlisted
  · exact flat_operand hoperand
  all_goals exact flat_token hkind rfl

theorem inside_of_listed {ts : List Token} (h : ∀ t ∈ ts, t.isListed = true) : ∀ t ∈ ts, t.kind ≠ .rparen := by
  intro t ht hkind
  have hlisted := h t ht
  simp [Token.isListed, hkind, TokenKind.isOperand] at hlisted

namespace Flat

variable {t : Token} {ts us : List Token}

theorem nil : Flat [] := fun _ h => absurd h List.not_mem_nil

theorem cons (ht : t.isFlat) (h : Flat ts) : Flat (t :: ts) := List.forall_mem_cons.mpr ⟨ht, h⟩

theorem append (h : Flat ts) (hus : Flat us) : Flat (ts ++ us) := List.forall_mem_append.mpr ⟨h, hus⟩

theorem of_prefix (h : Flat ts) {p : List Token} (hp : p <+: ts) : Flat p := fun t ht => h t (hp.subset ht)

theorem balanced (h : Flat ts) : Balanced ts := .of_forall fun t ht => (h t ht).1

theorem terms {terms : List (Operator × Operand)} (h : TermsSpelled terms ts) : Flat ts := by
  induction h with
  | nil => exact .nil
  | cons ht _ hb _ ih => exact .cons (flat_token ht rfl) (.cons (flat_operand hb) ih)

theorem chain {c : Chain} (h : c.Spelled ts) : Flat ts := by
  obtain ⟨ht, hterms⟩ := h
  exact .cons (flat_operand ht) (.terms hterms)

theorem condition {c : Chain} (h : ConditionSpelled c ts) : Flat ts := by
  obtain ⟨hl, hc, hr⟩ := h
  exact .cons (flat_token hl rfl) (.append (.chain hc) (.cons (flat_token hr rfl) .nil))

theorem declaration {d : Declaration} (h : d.Spelled ts) : Flat ts := by
  cases h with
  | plain ht hname hsemi =>
    refine .cons (flat_token (Read.kind_of_dataType? ht) rfl) (.cons (flat_token hname rfl) ?_)
    exact .cons (flat_token hsemi rfl) .nil
  | valued ht hname heq hc hsemi =>
    refine .cons (flat_token (Read.kind_of_dataType? ht) rfl) (.cons (flat_token hname rfl) ?_)
    exact .cons (flat_token heq rfl) (.append (.chain hc) (.cons (flat_token hsemi rfl) .nil))

theorem assignment {c : Chain} {eq semi : Token} (ht : t.kind = .identifier) (heq : eq.kind = .assign)
    (hc : c.Spelled ts) (hsemi : semi.kind = .semicolon) : Flat (t :: eq :: (ts ++ [semi])) := by
  refine .cons (flat_token ht rfl) (.cons (flat_token heq rfl) ?_)
  exact .append (.chain hc) (.cons (flat_token hsemi rfl) .nil)

theorem call {l r semi : Token} (ht : t.kind = .identifier ∨ ∃ k ∈ Keyword.callable, t.keyword? = some k)
    (hl : l.kind = .lparen) (hts : ∀ u ∈ ts, u.isListed = true) (hr : r.kind = .rparen)
    (hsemi : semi.kind = .semicolon) : Flat (t :: l :: (ts ++ [r, semi])) := by
  have hfirst : t.isFlat := by
    rcases ht with ht | ⟨k, hk, ht⟩
    · exact flat_token ht rfl
    · refine flat_keyword ht ?_
      rintro rfl
      exact absurd hk (by decide)
  refine .cons hfirst (.cons (flat_token hl rfl) (.append (flat_of_listed hts) ?_))
  exact .cons (flat_token hr rfl) (.cons (flat_token hsemi rfl) .nil)

theorem leave {semi : Token} (ht : t.keyword? = some .brk) (hsemi : semi.kind = .semicolon) : Flat [t, semi] :=
  .cons (flat_keyword ht (by decide)) (.cons (flat_token hsemi rfl) .nil)

theorem loopHeader {d : Declaration} {c : Chain} {l semi r : Token} {ds cs : List Token} (hl : l.kind = .lparen)
    (hd : d.Spelled ds) (hc : c.Spelled cs) (hsemi : semi.kind = .semicolon) (hts : ∀ u ∈ ts, u.isListed = true)
    (hr : r.kind = .rparen) : Flat (l :: (ds ++ (cs ++ semi :: (ts ++ [r])))) := by
  refine .cons (flat_token hl rfl) (.append (.declaration hd) (.append (.chain hc) (.cons (flat_token hsemi rfl) ?_)))
  exact .append (flat_of_listed hts) (.cons (flat_token hr rfl) .nil)

theorem header {name l r : Token} (hname : name.kind = .identifier) (hl : l.kind = .lparen)
    (hts : ∀ u ∈ ts, u.isListed = true) (hr : r.kind = .rparen) : Flat (name :: l :: (ts ++ [r])) := by
  refine .cons (flat_token hname rfl) (.cons (flat_token hl rfl) (.append (flat_of_listed hts) ?_))
  exact .cons (flat_token hr rfl) .nil

end Flat

/-! ## Loops without an end -/

/-- How many `last` loops have no `wish` behind their block. -/
def unfinished : List Token → Nat
  | [] => 0
  | t :: ts =>
    (if t.keyword? = some .last ∧ (behindBlock 0 ts).head?.bind Token.keyword? ≠ some .wish then 1 else 0) +
      unfinished ts

theorem unfinished_flat {ts : List Token} (h : Flat ts) (rest : List Token) :
    unfinished (ts ++ rest) = unfinished rest := by
  induction ts with
  | nil => rfl
  | cons t ts ih =>
    obtain ⟨ht, hts⟩ := List.forall_mem_cons.mp h
    rw [List.cons_append, unfinished, if_neg fun hlast => ht.2 hlast.1, Nat.zero_add]
    exact ih hts

theorem unfinished_brace {t : Token} (h : t.isBrace = true) (rest : List Token) :
    unfinished (t :: rest) = unfinished rest := by
  rw [unfinished, if_neg, Nat.zero_add]
  rintro ⟨hlast, -⟩
  rw [Token.isBrace_of_kind (Read.kind_of_keyword? hlast) (by decide) (by decide)] at h
  cases h

/-- What is balanced and has no unfinished loop, whatever follows. -/
structure Complete (ts : List Token) : Prop where
  balanced : Balanced ts
  finished : ∀ rest, unfinished (ts ++ rest) = unfinished rest

namespace Complete

variable {ts us : List Token}

theorem of_flat (h : Flat ts) : Complete ts := ⟨h.balanced, unfinished_flat h⟩

theorem append (h : Complete ts) (hus : Complete us) : Complete (ts ++ us) :=
  ⟨h.balanced.append hus.balanced, fun rest => by rw [List.append_assoc, h.finished, hus.finished]⟩

theorem cons {t : Token} (ht : t.isFlat) (h : Complete ts) : Complete (t :: ts) :=
  append (of_flat (.cons ht .nil)) h

theorem block {l r : Token} (hl : l.kind = .lcurly) (h : Complete ts) (hr : r.kind = .rcurly) :
    Complete (l :: (ts ++ [r])) := by
  refine ⟨.block hl h.balanced hr .nil, fun rest => ?_⟩
  rw [List.cons_append, List.append_assoc, List.singleton_append, unfinished_brace (by simp [Token.isBrace, hl]),
    h.finished, unfinished_brace (by simp [Token.isBrace, hr])]

end Complete

/-- A `last` loop whose block is cut has no end. -/
theorem unfinished_last {t : Token} (ht : t.keyword? = some .last) {us : List Token} (h : InBraces us) {p : List Token}
    (hp : p <+: us) : unfinished (t :: p) = unfinished p + 1 := by
  rw [unfinished, h.behindBlock_prefix hp, if_pos ⟨ht, by simp⟩, Nat.add_comm]

theorem unfinished_last_wish {t w : Token} {us : List Token} (h : InBraces us) (hw : w.keyword? = some .wish)
    (rest : List Token) : unfinished (t :: (us ++ w :: rest)) = unfinished (us ++ w :: rest) := by
  rw [unfinished, h.behindBlock_append, if_neg, Nat.zero_add]
  exact fun hlast => hlast.2 hw

theorem Complete.doWhile {t w : Token} {us ts : List Token} (ht : t.keyword? = some .last) (h : InBraces us)
    (hus : Complete us) (hw : w.keyword? = some .wish) (hts : Flat ts) : Complete (t :: (us ++ w :: ts)) := by
  have hend : Complete (w :: ts) := .cons (flat_keyword hw (by decide)) (.of_flat hts)
  refine ⟨.other (Token.isBrace_of_kind (Read.kind_of_keyword? ht) (by decide) (by decide)) ?_, fun rest => ?_⟩
  · exact hus.balanced.append hend.balanced
  · rw [List.cons_append, List.append_assoc, List.cons_append, unfinished_last_wish h hw, hus.finished,
      ← List.cons_append, hend.finished]

namespace Phrase

/-- Every phrase is complete, and a block stands in its own braces. -/
theorem complete_and_inBraces {form : Nonterminal} {ts : List Token} (h : Phrase form ts) :
    Complete ts ∧ (form = .block → InBraces ts) := by
  induction h with
  | block hl _ hr ih => exact ⟨.block hl ih.1 hr, fun _ => .mk hl ih.1.balanced hr⟩
  | nil | done => exact ⟨.of_flat .nil, nofun⟩
  | cons _ _ ihs ih => exact ⟨ihs.1.append ih.1, nofun⟩
  | otherwise ht _ ih => exact ⟨.cons (flat_keyword ht (by decide)) ih.1, nofun⟩
  | branch ht hc _ _ ih iha | conditional ht hc _ _ ih iha =>
    exact ⟨.cons (flat_keyword ht (by decide)) ((Complete.of_flat (.condition hc)).append (ih.1.append iha.1)), nofun⟩
  | inner _ ih => exact ⟨ih.1, nofun⟩
  | declaration h => exact ⟨.of_flat (.declaration h), nofun⟩
  | assignment ht heq hc hsemi => exact ⟨.of_flat (.assignment ht heq hc hsemi), nofun⟩
  | call ht hl hts hr hsemi => exact ⟨.of_flat (.call ht hl hts hr hsemi), nofun⟩
  | leave ht hsemi => exact ⟨.of_flat (.leave ht hsemi), nofun⟩
  | whileLoop ht hc _ ih =>
    exact ⟨.cons (flat_keyword ht (by decide)) ((Complete.of_flat (.condition hc)).append ih.1), nofun⟩
  | doWhile ht _ hw hc hsemi ih =>
    exact ⟨.doWhile ht (ih.2 rfl) ih.1 hw (.append (.condition hc) (.cons (flat_token hsemi rfl) .nil)), nofun⟩
  | counting ht hl hd hc hsemi hss hr _ ih =>
    have hheader := Complete.of_flat (.loopHeader hl hd hc hsemi hss hr)
    exact ⟨.cons (flat_keyword ht (by decide)) (hheader.append ih.1), nofun⟩
  | function ht hname hl hts hr _ ih =>
    have hheader := Complete.of_flat (.header hname hl hts hr)
    exact ⟨.cons (flat_keyword ht (by decide)) (hheader.append ih.1), nofun⟩

theorem complete {form : Nonterminal} {ts : List Token} (h : Phrase form ts) : Complete ts := h.complete_and_inBraces.1

theorem inBraces {ts : List Token} (h : Phrase .block ts) : InBraces ts := h.complete_and_inBraces.2 rfl

/-- The first token of a statement ends no block and begins no further branch. -/
theorem first {ts : List Token} (h : Phrase .statement ts) :
    ∃ t us, ts = t :: us ∧ t.kind ≠ .rcurly ∧ t.keyword? ≠ some .chaloye ∧ t.keyword? ≠ some .naioye := by
  have hplain : ∀ {t : Token} {kind : TokenKind}, t.kind = kind → kind ≠ .rcurly → kind ≠ .keyword →
      t.kind ≠ .rcurly ∧ t.keyword? ≠ some .chaloye ∧ t.keyword? ≠ some .naioye := by
    rintro t kind rfl hr hword
    exact ⟨hr, Read.noBranch_of_kind hword⟩
  have hword : ∀ {t : Token} {k : Keyword}, t.keyword? = some k → k ≠ .chaloye → k ≠ .naioye →
      t.kind ≠ .rcurly ∧ t.keyword? ≠ some .chaloye ∧ t.keyword? ≠ some .naioye := by
    intro t k ht hchaloye hnaioye
    refine ⟨by rw [Read.kind_of_keyword? ht]; decide, ?_, ?_⟩ <;> simpa [ht]
  cases h with
  | inner h =>
    obtain ⟨hl, -, -⟩ := h
    exact ⟨_, _, rfl, hplain hl (by decide) (by decide)⟩
  | declaration h =>
    cases h with
    | plain ht | valued ht => exact ⟨_, _, rfl, hplain (Read.kind_of_dataType? ht) (by decide) (by decide)⟩
  | assignment ht => exact ⟨_, _, rfl, hplain ht (by decide) (by decide)⟩
  | call ht =>
    rcases ht with ht | ⟨k, hk, ht⟩
    · exact ⟨_, _, rfl, hplain ht (by decide) (by decide)⟩
    · have hcallable : ∀ k ∈ Keyword.callable, k ≠ .chaloye ∧ k ≠ .naioye := by decide
      exact ⟨_, _, rfl, hword ht (hcallable k hk).1 (hcallable k hk).2⟩
  | leave ht | conditional ht | whileLoop ht | doWhile ht | counting ht | function ht =>
    exact ⟨_, _, rfl, hword ht (by decide) (by decide)⟩

/-- Statements begin no further branch. -/
theorem noBranch {ts rest : List Token} (h : Phrase .statements ts) (hrest : Read.AtEnd rest) :
    Read.NoBranch (ts ++ rest) := by
  cases h with
  | nil => exact hrest.noBranch
  | cons hs _ =>
    obtain ⟨t, us, rfl, -, ht⟩ := hs.first
    intro u hu
    cases hu
    exact ht

theorem noBranch_prefix {ts p : List Token} (h : Phrase .statements ts) (hp : p <+: ts) : Read.NoBranch p := by
  obtain ⟨rest, rfl⟩ := hp
  intro u hu
  refine h.noBranch Read.atEnd_nil u ?_
  rw [List.append_nil, List.head?_append_of_ne_nil _ (by rintro rfl; cases hu), hu]

end Phrase

end Dotlang
