import Dotlang.Proofs.Grammar

/-!
# Reading undoes spelling

* `Chain.read_of_spelled`, `Argument.readAll_of_spelled` and so on : the parts of statements;
* `Eats F m ts Q` : before tokens that `F` holds of, `m` takes exactly `ts`, without a diagnostic, and
  returns something that `Q` holds of;
* `eats_items` : statements that are spelled are read back.
-/

namespace Dotlang

/-! ## Chains and lists -/

/-- Where a chain ends. -/
def NoOperator (ts : List Token) : Prop := ∀ t, ts.head? = some t → t.kind ≠ .operator

theorem noOperator_nil : NoOperator [] := fun t ht => by simp at ht

theorem noOperator_cons {t : Token} (h : t.kind ≠ .operator) (ts : List Token) : NoOperator (t :: ts) := by
  intro u hu
  cases hu
  exact h

theorem readTerms_of_spelled {terms : List (Operator × Operand)} {ts : List Token} (h : TermsSpelled terms ts)
    {rest : List Token} (hrest : NoOperator rest) : Chain.readTerms (ts ++ rest) = (terms, rest) := by
  induction h with
  | nil =>
    match rest with
    | [] => rfl
    | [t] =>
      have ht := hrest t rfl
      simp [Chain.readTerms, ht]
    | t :: u :: rest =>
      have ht := hrest t rfl
      simp [Chain.readTerms, ht]
  | cons ht hop hb _ ih =>
    rw [List.cons_append, List.cons_append, Chain.readTerms, if_pos ht, if_pos hb, ih, hop, Operator.ofLexeme?_lexeme]
    rfl

theorem Chain.read_of_spelled {c : Chain} {ts : List Token} (h : c.Spelled ts) {rest : List Token}
    (hrest : NoOperator rest) : Chain.read (ts ++ rest) = (some c, rest) := by
  obtain ⟨ht, hterms⟩ := h
  rw [List.cons_append, Chain.read, if_pos ht, readTerms_of_spelled hterms hrest]

/-- No token of a chain closes a parenthesis. -/
theorem TermsSpelled.inside {terms : List (Operator × Operand)} {ts : List Token} (h : TermsSpelled terms ts) :
    ∀ t ∈ ts, t.kind ≠ .rparen := by
  induction h with
  | nil => exact fun t ht => absurd ht List.not_mem_nil
  | cons ht _ hb _ ih =>
    refine List.forall_mem_cons.mpr ⟨by rw [ht]; decide, List.forall_mem_cons.mpr ⟨fun h => ?_, ih⟩⟩
    rw [h] at hb
    exact absurd hb (by decide)

theorem Chain.Spelled.inside {c : Chain} {ts : List Token} (h : c.Spelled ts) : ∀ t ∈ ts, t.kind ≠ .rparen := by
  obtain ⟨ht, hterms⟩ := h
  refine List.forall_mem_cons.mpr ⟨fun h => ?_, hterms.inside⟩
  rw [h] at ht
  exact absurd ht (by decide)

theorem Chain.Spelled.ne_nil {c : Chain} {ts : List Token} (h : c.Spelled ts) : ts ≠ [] := by
  cases h
  exact List.cons_ne_nil _ _

theorem Argument.Spelled.inside {a : Argument} {ts : List Token} (h : a.Spelled ts) : ∀ t ∈ ts, t.kind ≠ .rparen := by
  cases h with
  | value h => exact h.inside
  | type ht => exact List.forall_mem_singleton.mpr (by rw [ht]; decide)

theorem ArgumentsSpelled.inside {args : List Argument} {ts : List Token} (h : ArgumentsSpelled args ts) :
    ∀ t ∈ ts, t.kind ≠ .rparen := by
  induction h with
  | nil => exact fun t ht => absurd ht List.not_mem_nil
  | one h => exact h.inside
  | cons h hcomma _ ih =>
    refine List.forall_mem_append.mpr ⟨h.inside, List.forall_mem_cons.mpr ⟨?_, ih⟩⟩
    rw [hcomma]
    decide

/-- One argument and, if there is one, the comma behind it. -/
theorem Argument.readAll_of_spelled {a : Argument} {ts : List Token} (h : a.Spelled ts) {rest : List Token}
    (hrest : NoOperator rest) (fuel : Nat) :
    Argument.readAll (fuel + 1) (ts ++ rest) =
      a :: Argument.readAll fuel (if rest.head?.any (fun t => t.kind = .comma) then rest.tail else rest) := by
  cases h with
  | value h =>
    obtain ⟨ht, hterms⟩ := h
    rename_i terms t ts
    have htype : t.kind ≠ .dataType := by
      intro h
      rw [h] at ht
      exact absurd ht (by decide)
    have hread := Chain.read_of_spelled (.mk ht hterms) hrest
    rw [List.cons_append] at hread ⊢
    rw [Argument.readAll]
    simp only [htype, if_false, hread]
    rfl
  | type ht =>
    rw [List.singleton_append, Argument.readAll]
    simp only [ht, if_true]
    rfl

theorem readAll_nil (fuel : Nat) : Argument.readAll fuel [] = [] := by cases fuel <;> rfl

theorem Argument.Spelled.length_pos {a : Argument} {ts : List Token} (h : a.Spelled ts) : 0 < ts.length := by
  cases h with
  | value h => exact List.length_pos_iff.mpr h.ne_nil
  | type => exact Nat.one_pos

theorem readAll_of_spelled {args : List Argument} {ts : List Token} (h : ArgumentsSpelled args ts) {fuel : Nat}
    (hfuel : ts.length ≤ fuel) : Argument.readAll fuel ts = args := by
  induction h generalizing fuel with
  | nil => exact readAll_nil fuel
  | @one a ts h =>
    obtain ⟨n, rfl⟩ : ∃ n, fuel = n + 1 := Nat.exists_eq_add_one.mpr (Nat.lt_of_lt_of_le h.length_pos hfuel)
    have hread := Argument.readAll_of_spelled h noOperator_nil n
    rw [List.append_nil] at hread
    rw [hread]
    exact congrArg (a :: ·) (readAll_nil n)
  | @cons a b args comma ts us h hcomma _ ih =>
    rw [List.length_append, List.length_cons] at hfuel
    obtain ⟨n, rfl⟩ : ∃ n, fuel = n + 1 := Nat.exists_eq_add_one.mpr (by omega)
    have hrest : NoOperator (comma :: us) := noOperator_cons (by rw [hcomma]; decide) us
    rw [Argument.readAll_of_spelled h hrest, List.head?_cons, Option.any_some, if_pos (by simp [hcomma]),
      List.tail_cons, ih (by omega)]

theorem ParametersSpelled.inside {params : List String} {ts : List Token} (h : ParametersSpelled params ts) :
    ∀ t ∈ ts, t.kind ≠ .rparen := by
  induction h with
  | nil => exact fun t ht => absurd ht List.not_mem_nil
  | one ht hname => simp [ht, hname]
  | cons ht hname hcomma _ ih =>
    simp only [List.forall_mem_cons, ht, hname, hcomma]
    exact ⟨by decide, by decide, by decide, ih⟩

/-- The window passes over the pairs that begin with a name or a comma. -/
theorem parameterNames_skip {t : Token} (ht : t.kind ≠ .dataType) (ts : List Token) :
    parameterNames (t :: ts) = parameterNames ts := by
  cases ts with
  | nil => rfl
  | cons u ts => rw [parameterNames, if_neg fun h => ht h.1, List.nil_append]

theorem parameterNames_of_spelled {params : List String} {ts : List Token} (h : ParametersSpelled params ts) :
    parameterNames ts = params := by
  induction h with
  | nil => rfl
  | one ht hname =>
    rw [parameterNames, if_pos ⟨ht, hname⟩, parameterNames_skip (by rw [hname]; decide)]
    rfl
  | cons ht hname hcomma _ ih =>
    rw [parameterNames, if_pos ⟨ht, hname⟩, parameterNames_skip (by rw [hname]; decide),
      parameterNames_skip (by rw [hcomma]; decide), ih, List.singleton_append]

theorem StepSpelled.inside {step : Option LoopStep} {ts : List Token} (h : StepSpelled step ts) :
    ∀ t ∈ ts, t.kind ≠ .rparen := by
  cases h with
  | absent => exact fun t ht => absurd ht List.not_mem_nil
  | assign ht heq h =>
    simp only [List.forall_mem_cons, ht, heq]
    exact ⟨by decide, by decide, h.inside⟩
  | compound ht ho _ hb =>
    simp only [List.forall_mem_cons, ht, ho]
    refine ⟨by decide, by decide, fun h => ?_, fun t ht => absurd ht List.not_mem_nil⟩
    rw [h] at hb
    exact absurd hb (by decide)

theorem ofTokens?_of_spelled {step : Option LoopStep} {ts : List Token} (h : StepSpelled step ts) :
    LoopStep.ofTokens? ts = step := by
  cases h with
  | absent => rfl
  | assign ht heq h =>
    have hread := Chain.read_of_spelled h noOperator_nil
    rw [List.append_nil] at hread
    simp only [LoopStep.ofTokens?, ht, heq, hread, if_true]
  | @compound op t o b ht ho hop hb =>
    have hassign : o.kind ≠ .assign := by
      rw [ho]
      decide
    have hlexeme : Operator.ofLexeme? o.lexeme = some (.arith op) := hop ▸ Operator.ofLexeme?_lexeme (.arith op)
    simp only [LoopStep.ofTokens?, ht, hassign, hlexeme, hb, if_true, if_false]

/-! ## What actions take -/

namespace Read

/-- Before tokens that `F` holds of, the action takes exactly these, and changes nothing else. -/
def Eats {α : Type} (F : List Token → Prop) (m : Read α) (ts : List Token) (Q : α → Prop) : Prop :=
  ∀ rest opened ds, F rest →
    Q (exec m ⟨ts ++ rest, opened, ds⟩).1 ∧ (exec m ⟨ts ++ rest, opened, ds⟩).2 = ⟨rest, opened, ds⟩

def Anywhere (_ : List Token) : Prop := True

namespace Eats

variable {α β : Type} {F G : List Token → Prop} {Q : β → Prop} {ts us : List Token} {t : Token}

theorem pure {b : β} (h : Q b) : Eats G (Pure.pure b) [] Q := fun _ _ _ _ => ⟨h, rfl⟩

theorem bind {m : Read α} {f : α → Read β} {P : α → Prop} (hm : Eats F m ts P)
    (hF : ∀ rest, G rest → F (us ++ rest)) (hf : ∀ a, P a → Eats G (f a) us Q) : Eats G (m >>= f) (ts ++ us) Q := by
  intro rest opened ds hrest
  obtain ⟨hP, hstate⟩ := hm (us ++ rest) opened ds (hF rest hrest)
  rw [List.append_assoc, exec_bind, hstate]
  exact hf _ hP rest opened ds hrest

theorem map {m : Read α} {f : α → β} (hm : Eats G m ts fun a => Q (f a)) : Eats G (f <$> m) ts Q :=
  fun rest opened ds hrest => hm rest opened ds hrest

theorem weaken {m : Read β} {P : β → Prop} (hm : Eats F m ts P) (hF : ∀ rest, G rest → F rest)
    (h : ∀ b, P b → Q b) : Eats G m ts Q :=
  fun rest opened ds hrest => ⟨h _ (hm rest opened ds (hF rest hrest)).1, (hm rest opened ds (hF rest hrest)).2⟩

/-- An action that takes one token before another. -/
theorem advance_bind {f : Unit → Read β} (hf : Eats G (f ()) us Q) : Eats G (advance >>= f) (t :: us) Q :=
  fun rest opened ds hrest => hf rest opened ds hrest

theorem expect_bind {kind : TokenKind} {f : Option Token → Read β} (ht : t.kind = kind)
    (hf : Eats G (f (some t)) us Q) : Eats G (expect kind >>= f) (t :: us) Q := by
  intro rest opened ds hrest
  rw [exec_bind, List.cons_append, exec_expect_cons, if_pos ht]
  exact hf rest opened ds hrest

theorem chain_bind {c : Chain} {f : Option Chain → Read β} (hc : c.Spelled ts) (ht : t.kind ≠ .operator)
    (hf : Eats G (f (some c)) (t :: us) Q) : Eats G (chain >>= f) (ts ++ t :: us) Q := by
  intro rest opened ds hrest
  have hread : Chain.read (ts ++ t :: us ++ rest) = (some c, t :: us ++ rest) := by
    rw [List.append_assoc]
    exact Chain.read_of_spelled hc (noOperator_cons ht _)
  simp only [exec_bind, exec_chain, hread]
  exact hf rest opened ds hrest

theorem untilParen_bind {f : List Token → Read β} (hts : ∀ u ∈ ts, u.kind ≠ .rparen) (ht : t.kind = .rparen)
    (hf : Eats G (f ts) (t :: us) Q) : Eats G (untilParen >>= f) (ts ++ t :: us) Q := by
  intro rest opened ds hrest
  have hinside : ∀ u ∈ ts, u.isInside = true := fun u hu => by simpa [Token.isInside] using hts u hu
  have houtside : ¬ t.isInside = true := by simp [Token.isInside, ht]
  simp only [exec_bind, exec_untilParen, List.append_assoc, List.takeWhile_append_of_pos hinside,
    List.dropWhile_append_of_pos hinside, List.cons_append, List.takeWhile_cons_of_neg houtside,
    List.dropWhile_cons_of_neg houtside, List.append_nil]
  exact hf rest opened ds hrest

/-- The last action of a sequence that takes anything. -/
theorem bind_last {m : Read α} {f : α → Read β} {P : α → Prop} (hm : Eats G m ts P)
    (hf : ∀ a, P a → Eats G (f a) [] Q) : Eats G (m >>= f) ts Q := by
  rw [← List.append_nil ts]
  exact hm.bind (fun rest hrest => hrest) hf

end Eats

/-! ## Statements one by one -/

/-- The tokens have ended, or a block ends. -/
def AtEnd (ts : List Token) : Prop := ∀ t, ts.head? = some t → t.kind = .rcurly

theorem atEnd_nil : AtEnd [] := fun t ht => by simp at ht

/-- No further branch of a conditional begins here. -/
def NoBranch (ts : List Token) : Prop :=
  ∀ t, ts.head? = some t → t.keyword? ≠ some .chaloye ∧ t.keyword? ≠ some .naioye

theorem noBranch_of_kind {t : Token} (h : t.kind ≠ .keyword) :
    t.keyword? ≠ some .chaloye ∧ t.keyword? ≠ some .naioye := by
  simp [Token.keyword?, h]

theorem AtEnd.noBranch {ts : List Token} (h : AtEnd ts) : NoBranch ts := by
  intro t ht
  refine noBranch_of_kind ?_
  rw [h t ht]
  decide

theorem kind_of_keyword? {t : Token} {k : Keyword} (h : t.keyword? = some k) : t.kind = .keyword := by
  unfold Token.keyword? at h
  split_ifs at h with hkind
  exact hkind

theorem kind_of_dataType? {t : Token} {type : DataType} (h : t.dataType? = some type) : t.kind = .dataType := by
  unfold Token.dataType? at h
  split_ifs at h with hkind
  exact hkind

section Forms

variable {ts us : List Token} {c : Chain}

theorem eats_condition (h : ConditionSpelled c ts) : Eats Anywhere condition ts (· = some c) := by
  obtain ⟨hl, hc, hr⟩ := h
  exact Eats.expect_bind hl (Eats.chain_bind hc (by rw [hr]; decide) (Eats.expect_bind hr (Eats.pure rfl)))

theorem eats_declaration {d : Declaration} (h : d.Spelled ts) : Eats Anywhere declaration ts (· = some d) := by
  intro rest opened ds _
  cases h with
  | plain ht hname hsemi =>
    simp [declaration, exec_expect_cons, kind_of_dataType? ht, ht, hname, hsemi]
  | @valued type c t name eq semi ts ht hname heq hc hsemi =>
    have hread : Chain.read (ts ++ semi :: rest) = (some c, semi :: rest) :=
      Chain.read_of_spelled hc (noOperator_cons (by rw [hsemi]; decide) _)
    simp [declaration, exec_expect_cons, kind_of_dataType? ht, ht, hname, heq, hread, hsemi]

theorem eats_braced {items : Read (List Statement)} {l r : Token} {P : List Statement → Prop} (hl : l.kind = .lcurly)
    (hr : r.kind = .rcurly) (h : Eats AtEnd items ts P) : Eats Anywhere (braced items) (l :: (ts ++ [r])) P := by
  intro rest opened ds _
  have hend : AtEnd (r :: rest) := by
    intro t ht
    cases ht
    exact hr
  obtain ⟨hP, hstate⟩ := h (r :: rest) (l.line :: opened) ds hend
  have htokens : l :: (ts ++ [r]) ++ rest = l :: (ts ++ r :: rest) := by simp
  simp only [braced, exec_bind, exec_openBlock, htokens, List.head?_cons, Option.map_some, Option.toList_some,
    List.singleton_append, exec_expect_cons, hl, if_true, hstate, exec_closeBlock_cons, exec_pure, List.tail_cons]
  exact ⟨hP, trivial⟩

theorem eats_assignment {t eq semi : Token} (ht : t.kind = .identifier) (heq : eq.kind = .assign) (hc : c.Spelled ts)
    (hsemi : semi.kind = .semicolon) :
    Eats Anywhere (assignment t) (t :: eq :: (ts ++ [semi])) (· = .assign t.position t.lexeme (some c)) :=
  Eats.expect_bind ht <| Eats.expect_bind heq <| Eats.chain_bind hc (by rw [hsemi]; decide) <|
    Eats.expect_bind hsemi (Eats.pure rfl)

theorem eats_call {builtin : Bool} {args : List Argument} {t l r semi : Token} (hl : l.kind = .lparen)
    (hargs : ArgumentsSpelled args ts) (hr : r.kind = .rparen) (hsemi : semi.kind = .semicolon) :
    Eats Anywhere (call t builtin) (t :: l :: (ts ++ [r, semi])) (· = .call t.position t.lexeme args builtin) := by
  refine Eats.advance_bind <| Eats.expect_bind hl <| Eats.untilParen_bind hargs.inside hr ?_
  refine Eats.expect_bind hr <| Eats.expect_bind hsemi <| Eats.pure ?_
  rw [readAll_of_spelled hargs (Nat.le_refl _)]

theorem eats_leave {t semi : Token} (hsemi : semi.kind = .semicolon) :
    Eats Anywhere (leave t) [t, semi] (· = .brk t.position) :=
  Eats.advance_bind (Eats.expect_bind hsemi (Eats.pure rfl))

section Blocks

variable {block : Read (List Statement)} {body : List Statement}
  (hblock : Eats Anywhere block us fun b => eraseBody b = eraseBody body)
include hblock

theorem eats_whileLoop {t : Token} (hc : ConditionSpelled c ts) :
    Eats Anywhere (whileLoop block t) (t :: (ts ++ us)) fun s =>
      s.erase = (Statement.whileLoop t.position (some c) body).erase := by
  refine Eats.advance_bind <| (eats_condition hc).bind (fun _ _ => trivial) ?_
  rintro _ rfl
  refine hblock.bind_last fun b hb => Eats.pure ?_
  rw [Statement.erase, hb, Statement.erase]

theorem eats_function {params : List String} {t name l r : Token} (hname : name.kind = .identifier)
    (hl : l.kind = .lparen) (hparams : ParametersSpelled params ts) (hr : r.kind = .rparen) :
    Eats Anywhere (function block t) (t :: name :: l :: (ts ++ r :: us)) fun s =>
      s.erase = (Statement.function t.position name.lexeme params body).erase := by
  refine Eats.advance_bind <| Eats.expect_bind hname <| Eats.expect_bind hl ?_
  refine Eats.untilParen_bind hparams.inside hr <| Eats.expect_bind hr ?_
  refine hblock.bind_last fun b hb => Eats.pure ?_
  rw [Statement.erase, hb, Statement.erase, parameterNames_of_spelled hparams]
  rfl

theorem eats_doWhile {t w semi : Token} (hw : w.keyword? = some .wish) (hc : ConditionSpelled c ts)
    (hsemi : semi.kind = .semicolon) :
    Eats Anywhere (doWhile block t) (t :: (us ++ w :: (ts ++ [semi]))) fun s =>
      s.erase = (Statement.doWhile t.position body (some c)).erase := by
  refine Eats.advance_bind <| hblock.bind (fun _ _ => trivial) fun b hb => ?_
  have hrest : Eats Anywhere (condition >>= fun cond => expect .semicolon >>= fun _ =>
      pure (Statement.doWhile t.position b cond)) (ts ++ [semi]) fun s =>
        s.erase = (Statement.doWhile t.position body (some c)).erase := by
    refine (eats_condition hc).bind (fun _ _ => trivial) ?_
    rintro _ rfl
    refine Eats.expect_bind hsemi (Eats.pure ?_)
    rw [Statement.erase, hb, Statement.erase]
  intro rest opened ds h
  simpa [hw] using hrest rest opened ds h

theorem eats_counting {d : Declaration} {step : Option LoopStep} {t l semi r : Token} {ds cs ss : List Token}
    (hl : l.kind = .lparen) (hd : d.Spelled ds) (hc : c.Spelled cs) (hsemi : semi.kind = .semicolon)
    (hstep : StepSpelled step ss) (hr : r.kind = .rparen) :
    Eats Anywhere (counting block t) (t :: l :: (ds ++ (cs ++ semi :: (ss ++ r :: us)))) fun s =>
      s.erase = (Statement.counting t.position (some d) (some c) step body).erase := by
  refine Eats.advance_bind <| Eats.expect_bind hl <| (eats_declaration hd).bind (fun _ _ => trivial) ?_
  rintro _ rfl
  refine Eats.chain_bind hc (by rw [hsemi]; decide) <| Eats.expect_bind hsemi ?_
  refine Eats.untilParen_bind hstep.inside hr <| Eats.expect_bind hr ?_
  refine hblock.bind_last fun b hb => Eats.pure ?_
  rw [Statement.erase, hb, Statement.erase, ofTokens?_of_spelled hstep]

theorem eats_conditional {a : Alternatives} {t : Token} {vs : List Token} (hc : ConditionSpelled c ts)
    (ha : ∀ n, vs.length ≤ n → Eats NoBranch (alternatives block n) vs fun b => b.erase = a.erase) :
    Eats NoBranch (conditional block t) (t :: (ts ++ (us ++ vs))) fun s =>
      s.erase = (Statement.conditional t.position (some c) body a).erase := by
  refine Eats.advance_bind <| (eats_condition hc).bind (fun _ _ => trivial) ?_
  rintro _ rfl
  refine hblock.bind (fun _ _ => trivial) fun b hb => fun rest opened ds h => ?_
  obtain ⟨halternatives, hstate⟩ := ha (vs ++ rest).length (by simp) rest opened ds h
  rw [exec_bind, exec_get, exec_bind]
  refine ⟨?_, hstate⟩
  rw [exec_pure, Statement.erase, hb, halternatives, Statement.erase]

end Blocks

section Alternatives

variable {block : Read (List Statement)}

theorem eats_done (n : Nat) : Eats NoBranch (alternatives block n) [] fun b => b.erase = Alternatives.done.erase := by
  intro rest opened ds h
  cases n with
  | zero => exact ⟨rfl, rfl⟩
  | succ n =>
    have hnone : ∀ k, k = Keyword.chaloye ∨ k = Keyword.naioye →
        (rest.head?.any fun t => t.keyword? = some k) = false := by
      intro k hk
      cases rest with
      | nil => rfl
      | cons t rest =>
        obtain ⟨hfirst, hlast⟩ := h t rfl
        rcases hk with rfl | rfl
        · simpa using hfirst
        · simpa using hlast
    simp [alternatives, hnone]

theorem eats_otherwise {body : List Statement} {t : Token} (ht : t.keyword? = some .naioye)
    (hblock : Eats Anywhere block us fun b => eraseBody b = eraseBody body) {n : Nat} (hn : 0 < n) :
    Eats NoBranch (alternatives block n) (t :: us) fun b => b.erase = (Alternatives.otherwise body).erase := by
  obtain ⟨n, rfl⟩ := Nat.exists_eq_add_one.mpr hn
  have hrest : Eats Anywhere (block >>= fun b => pure (Alternatives.otherwise b)) us fun b =>
      b.erase = (Alternatives.otherwise body).erase := by
    refine hblock.bind_last fun b hb => Eats.pure ?_
    rw [Alternatives.erase, hb, Alternatives.erase]
  intro rest opened ds _
  simpa [alternatives, ht] using hrest rest opened ds trivial

theorem eats_branch {body : List Statement} {a : Alternatives} {t : Token} {vs : List Token}
    (ht : t.keyword? = some .chaloye) (hc : ConditionSpelled c ts)
    (hblock : Eats Anywhere block us fun b => eraseBody b = eraseBody body) {n : Nat}
    (ha : Eats NoBranch (alternatives block n) vs fun b => b.erase = a.erase) :
    Eats NoBranch (alternatives block (n + 1)) (t :: (ts ++ (us ++ vs))) fun b =>
      b.erase = (Alternatives.branch (some c) body a).erase := by
  have hrest : Eats NoBranch (condition >>= fun cond => block >>= fun b => alternatives block n >>= fun rest =>
      pure (Alternatives.branch cond b rest)) (ts ++ (us ++ vs)) fun b =>
        b.erase = (Alternatives.branch (some c) body a).erase := by
    refine (eats_condition hc).bind (fun _ _ => trivial) ?_
    rintro _ rfl
    refine hblock.bind (fun _ _ => trivial) fun b hb => ha.bind_last fun rest hrest => Eats.pure ?_
    rw [Alternatives.erase, hb, hrest, Alternatives.erase]
  intro rest opened ds h
  simpa [alternatives, ht] using hrest rest opened ds h

end Alternatives

end Forms

/-! ## Statements -/

/-- The first token of a statement ends no block and begins no further branch. -/
theorem first_of_spelled {s : Statement} {ts : List Token} (h : s.Spelled ts) :
    ∃ t us, ts = t :: us ∧ t.kind ≠ .rcurly ∧ NoBranch (t :: us) := by
  have hkind : ∀ (t : Token) us, t.kind ≠ .keyword → NoBranch (t :: us) := by
    intro t us ht u hu
    cases hu
    exact noBranch_of_kind ht
  have hword : ∀ (t : Token) us (k : Keyword), t.keyword? = some k → k ≠ .chaloye → k ≠ .naioye →
      t.kind ≠ .rcurly ∧ NoBranch (t :: us) := by
    intro t us k ht hchaloye hnaioye
    refine ⟨by rw [kind_of_keyword? ht]; decide, fun u hu => ?_⟩
    cases hu
    rw [ht]
    exact ⟨fun h => hchaloye (Option.some.inj h), fun h => hnaioye (Option.some.inj h)⟩
  cases h with
  | block h =>
    obtain ⟨hl, -, -⟩ := h
    exact ⟨_, _, rfl, by rw [hl]; decide, hkind _ _ (by rw [hl]; decide)⟩
  | declare h =>
    cases h with
    | plain ht | valued ht =>
      have ht := kind_of_dataType? ht
      exact ⟨_, _, rfl, by rw [ht]; decide, hkind _ _ (by rw [ht]; decide)⟩
  | assign ht | userCall ht => exact ⟨_, _, rfl, by rw [ht]; decide, hkind _ _ (by rw [ht]; decide)⟩
  | builtinCall hk ht =>
    have hcallable : ∀ k ∈ Keyword.callable, k ≠ .chaloye ∧ k ≠ .naioye := by decide
    exact ⟨_, _, rfl, hword _ _ _ ht (hcallable _ hk).1 (hcallable _ hk).2⟩
  | function ht | conditional ht | whileLoop ht | doWhile ht | counting ht | brk ht =>
    exact ⟨_, _, rfl, hword _ _ _ ht (by decide) (by decide)⟩

theorem noBranch_body {body : List Statement} {ts : List Token} (h : BodySpelled body ts) {rest : List Token}
    (hrest : AtEnd rest) : NoBranch (ts ++ rest) := by
  cases h with
  | nil => exact hrest.noBranch
  | cons hs h =>
    obtain ⟨t, us, rfl, -, ht⟩ := first_of_spelled hs
    exact fun u hu => ht u hu

section Dispatch

variable {block : Read (List Statement)} {ts : List Token} {s : Statement}

/-- The result of a form of statement as that of `statement`. -/
theorem eats_some {F : List Token → Prop} {m : Read Statement} (hF : ∀ rest, NoBranch rest → F rest)
    (h : Eats F m ts fun s' => s'.erase = s.erase) :
    Eats NoBranch (some <$> m) ts fun o => o.map Statement.erase = some s.erase :=
  Eats.map (h.weaken hF fun _ hs => congrArg some hs)

theorem eats_statement_declare {pos : Position} {d : Declaration} {t : Token} (ht : t.kind = .dataType)
    (h : d.Spelled ts) :
    Eats NoBranch (statement block t) ts fun o => o.map Statement.erase = some (Statement.declare pos d).erase := by
  simp only [statement, ht]
  refine Eats.map ((eats_declaration h).weaken (fun _ _ => trivial) ?_)
  rintro _ rfl
  rfl

theorem eats_statement_block {pos : Position} {body : List Statement} {t : Token} (ht : t.kind = .lcurly)
    (h : Eats Anywhere block ts fun b => eraseBody b = eraseBody body) :
    Eats NoBranch (statement block t) ts fun o => o.map Statement.erase = some (Statement.block pos body).erase := by
  simp only [statement, ht]
  refine eats_some (fun _ _ => trivial) (Eats.map (h.weaken (fun _ _ => trivial) fun b hb => ?_))
  rw [Statement.erase, hb, Statement.erase]

/-- A name is told apart by the token behind it. -/
theorem eats_statement_name {t next : Token} (ht : t.kind = .identifier) {m : Read Statement}
    (hm : (next.kind = .assign ∧ m = assignment t) ∨ (next.kind = .lparen ∧ m = call t false))
    (h : Eats Anywhere m (t :: next :: ts) (·.erase = s.erase)) :
    Eats NoBranch (statement block t) (t :: next :: ts) fun o => o.map Statement.erase = some s.erase := by
  have hsome := eats_some (fun _ _ => trivial) h
  intro rest opened ds hrest
  have hthis := hsome rest opened ds hrest
  simp only [List.cons_append] at hthis ⊢
  simp only [statement, ht, exec_bind, exec_get, List.tail_cons, List.head?_cons, Option.map_some]
  rcases hm with ⟨hnext, rfl⟩ | ⟨hnext, rfl⟩
  · simpa only [hnext] using hthis
  · simpa only [hnext] using hthis

theorem lexeme_of_keyword? {t : Token} {k : Keyword} (h : t.keyword? = some k) : t.lexeme = k.word := by
  unfold Token.keyword? at h
  split_ifs at h
  exact (by simpa using List.find?_some h : k.word = t.lexeme).symm

theorem statement_call {t : Token} {k : Keyword} (hk : k ∈ Keyword.callable) (ht : t.keyword? = some k) :
    statement block t = some <$> call t true := by
  simp only [Keyword.callable, List.mem_cons, List.not_mem_nil, or_false] at hk
  rcases hk with rfl | rfl | rfl <;> simp only [statement, kind_of_keyword? ht, ht]

end Dispatch

mutual

theorem eats_statement {s : Statement} {ts : List Token} (fuel : Nat) (h : s.Spelled ts)
    (hfuel : ts.length ≤ fuel + 1) :
    ∃ t us, ts = t :: us ∧
      Eats NoBranch (statement (braced (items fuel)) t) ts fun o => o.map Statement.erase = some s.erase :=
  match h with
  | .block h => by
    have hblock := eats_block fuel h (by omega)
    obtain ⟨hl, -, -⟩ := h
    exact ⟨_, _, rfl, eats_statement_block hl hblock⟩
  | .declare h => by
    obtain ⟨t, us, rfl, ht⟩ : ∃ t us, ts = t :: us ∧ t.kind = .dataType := by
      cases h with
      | plain ht | valued ht => exact ⟨_, _, rfl, kind_of_dataType? ht⟩
    exact ⟨t, us, rfl, eats_statement_declare ht h⟩
  | .assign ht heq hc hsemi =>
    ⟨_, _, rfl, eats_statement_name ht (Or.inl ⟨heq, rfl⟩)
      ((eats_assignment ht heq hc hsemi).weaken (fun _ _ => trivial) (by rintro _ rfl; rfl))⟩
  | .userCall ht hl hargs hr hsemi =>
    ⟨_, _, rfl, eats_statement_name ht (Or.inr ⟨hl, rfl⟩)
      ((eats_call hl hargs hr hsemi).weaken (fun _ _ => trivial) (by rintro _ rfl; rfl))⟩
  | .builtinCall hk ht hl hargs hr hsemi => by
    refine ⟨_, _, rfl, ?_⟩
    rw [statement_call hk ht]
    refine eats_some (fun _ _ => trivial) ((eats_call hl hargs hr hsemi).weaken (fun _ _ => trivial) ?_)
    rintro _ rfl
    rw [Statement.erase, Statement.erase, lexeme_of_keyword? ht]
  | .function ht hname hl hparams hr h => by
    simp only [List.length_cons, List.length_append] at hfuel
    refine ⟨_, _, rfl, ?_⟩
    simp only [statement, kind_of_keyword? ht, ht]
    exact eats_some (fun _ _ => trivial) (eats_function (eats_block fuel h (by omega)) hname hl hparams hr)
  | .conditional ht hc h ha => by
    simp only [List.length_cons, List.length_append] at hfuel
    refine ⟨_, _, rfl, ?_⟩
    simp only [statement, kind_of_keyword? ht, ht]
    refine eats_some (fun _ h => h) (eats_conditional (eats_block fuel h (by omega)) hc fun n hn => ?_)
    exact eats_alternatives fuel n ha (by omega) hn
  | .whileLoop ht hc h => by
    simp only [List.length_cons, List.length_append] at hfuel
    refine ⟨_, _, rfl, ?_⟩
    simp only [statement, kind_of_keyword? ht, ht]
    exact eats_some (fun _ _ => trivial) (eats_whileLoop (eats_block fuel h (by omega)) hc)
  | .doWhile ht h hw hc hsemi => by
    simp only [List.length_cons, List.length_append] at hfuel
    refine ⟨_, _, rfl, ?_⟩
    simp only [statement, kind_of_keyword? ht, ht]
    exact eats_some (fun _ _ => trivial) (eats_doWhile (eats_block fuel h (by omega)) hw hc hsemi)
  | .counting ht hl hd hc hsemi hstep hr h => by
    simp only [List.length_cons, List.length_append] at hfuel
    refine ⟨_, _, rfl, ?_⟩
    simp only [statement, kind_of_keyword? ht, ht]
    exact eats_some (fun _ _ => trivial) (eats_counting (eats_block fuel h (by omega)) hl hd hc hsemi hstep hr)
  | .brk ht hsemi => by
    refine ⟨_, _, rfl, ?_⟩
    simp only [statement, kind_of_keyword? ht, ht]
    refine eats_some (fun _ _ => trivial) ((eats_leave hsemi).weaken (fun _ _ => trivial) ?_)
    rintro _ rfl
    rfl
termination_by 3 * ts.length + 1
decreasing_by
  all_goals try simp only [List.length_cons, List.length_append]
  all_goals omega

theorem eats_body {body : List Statement} {ts : List Token} (fuel : Nat) (h : BodySpelled body ts)
    (hfuel : ts.length ≤ fuel) : Eats AtEnd (items fuel) ts fun b => eraseBody b = eraseBody body :=
  match h with
  | .nil => by
    intro rest opened ds hrest
    cases fuel with
    | zero => exact ⟨rfl, rfl⟩
    | succ fuel =>
      cases rest with
      | nil => exact ⟨rfl, rfl⟩
      | cons t rest =>
        have ht := hrest t rfl
        simp [items, ht]
  | @BodySpelled.cons s body ts us hs h => by
    obtain ⟨t, ts', hts, hclose, -⟩ := first_of_spelled hs
    have hpos : 0 < ts.length := by simp [hts]
    rw [List.length_append] at hfuel
    obtain ⟨fuel, rfl⟩ : ∃ n, fuel = n + 1 := Nat.exists_eq_add_one.mpr (by omega)
    have hstatement := eats_statement fuel hs (by omega)
    have hbody := eats_body fuel h (by omega)
    subst hts
    obtain ⟨_, _, heq, hs⟩ := hstatement
    cases heq
    intro rest opened ds hrest
    -- the statement ends before the next one, which begins no further branch
    obtain ⟨hfirst, hstate⟩ := hs (us ++ rest) opened ds (noBranch_body h hrest)
    obtain ⟨hothers, hfinal⟩ := hbody rest opened ds hrest
    rw [← List.append_assoc] at hfirst hstate
    obtain ⟨s', hs', herase⟩ := Option.map_eq_some_iff.mp hfirst
    simp only [items, exec_bind, exec_current, List.cons_append, List.head?_cons, hclose, if_false] at hs' hstate ⊢
    simp only [hs', hstate, exec_pure]
    exact ⟨by rw [Option.toList_some, List.singleton_append, eraseBody, eraseBody, herase, hothers], hfinal⟩
termination_by 3 * ts.length + 2
decreasing_by
  all_goals rw [List.length_append]
  all_goals omega

theorem eats_block {body : List Statement} {ts : List Token} (fuel : Nat) (h : BlockSpelled body ts)
    (hfuel : ts.length ≤ fuel + 2) : Eats Anywhere (braced (items fuel)) ts fun b => eraseBody b = eraseBody body :=
  match h with
  | .mk hl h hr => eats_braced hl hr (eats_body fuel h (by simp at hfuel; omega))
termination_by 3 * ts.length
decreasing_by
  simp only [List.length_cons, List.length_append]
  omega

theorem eats_alternatives {a : Alternatives} {ts : List Token} (fuel n : Nat) (h : a.Spelled ts)
    (hfuel : ts.length ≤ fuel + 2) (hn : ts.length ≤ n) :
    Eats NoBranch (alternatives (braced (items fuel)) n) ts fun b => b.erase = a.erase :=
  match h with
  | .done => eats_done n
  | .otherwise ht h => by
    rw [List.length_cons] at hfuel hn
    exact eats_otherwise ht (eats_block fuel h (by omega)) (by omega)
  | .branch ht hc h hrest => by
    simp only [List.length_cons, List.length_append] at hfuel hn
    obtain ⟨n, rfl⟩ : ∃ m, n = m + 1 := Nat.exists_eq_add_one.mpr (by omega)
    exact eats_branch ht hc (eats_block fuel h (by omega)) (eats_alternatives fuel n hrest (by omega) (by omega))
termination_by 3 * ts.length
decreasing_by
  all_goals simp only [List.length_cons, List.length_append]
  all_goals omega

end

end Read

/-- A spelled program is read back, whatever stood where. -/
theorem parse_of_spelled {body : List Statement} {ts : List Token} (h : BodySpelled body ts) :
    (parse ts).diagnostics = [] ∧ eraseBody (parse ts).body = eraseBody body := by
  cases hts : ts.length with
  | zero =>
    obtain rfl := List.length_eq_zero_iff.mp hts
    obtain ⟨hbody, -⟩ := Read.eats_body 0 h (Nat.le_refl _) [] [] [] Read.atEnd_nil
    exact ⟨rfl, hbody⟩
  | succ n =>
    obtain ⟨hbody, hstate⟩ := Read.eats_body (n + 1) h (by omega) [] [] [] Read.atEnd_nil
    rw [List.append_nil] at hbody hstate
    have hrun : (Read.program ts.length).run ⟨ts, [], []⟩ =
        ((Read.exec (Read.items (n + 1)) ⟨ts, [], []⟩).1, ⟨[], [], []⟩) := by
      change Read.exec (Read.program ts.length) ⟨ts, [], []⟩ = _
      simp only [hts, Read.program, Read.exec_bind, Read.exec_current, hstate, List.head?_nil, Read.exec_pure]
    simp only [parse, hrun]
    exact ⟨trivial, hbody⟩

/-- **Reading undoes spelling.** Every well-formed tree can be spelled, and from every spelling of it the same
tree is read back, up to positions and without a diagnostic. -/
theorem parse_undoes_spelling {body : List Statement} (h : bodyIsWellFormed body = true) :
    (∃ ts, BodySpelled body ts) ∧
      ∀ ts, BodySpelled body ts → (parse ts).diagnostics = [] ∧ eraseBody (parse ts).body = eraseBody body :=
  ⟨exists_bodySpelled h, fun _ hts => parse_of_spelled hts⟩

/-- `first (nmb i =. 0; i <. 3; i +. 1) { oye (i) { brk; } chaloye (i) { } naioye { printO(i, nmb); } }` -/
def nestedLoop : List Statement :=
  let i : Chain := ⟨⟨.identifier, "i"⟩, []⟩
  [.counting ⟨1, 1⟩ (some ⟨some .integer, "i", some ⟨⟨.number, "0"⟩, []⟩⟩)
    (some ⟨i.first, [(.compare .lt, ⟨.number, "3"⟩)]⟩) (some (.compound "i" (.arith .add) ⟨.number, "1"⟩))
    [.conditional ⟨1, 30⟩ (some i) [.brk ⟨1, 40⟩]
      (.branch (some i) [] (.otherwise [.call ⟨1, 70⟩ "printO" [.value i, .type "nmb"] true]))]]

theorem parse_undoes_spelling_of_nestedLoop :
    ∃ ts, BodySpelled nestedLoop ts ∧
      (parse ts).diagnostics = [] ∧ eraseBody (parse ts).body = eraseBody nestedLoop := by
  have hwellFormed : bodyIsWellFormed nestedLoop = true := by decide
  obtain ⟨⟨ts, hts⟩, hparse⟩ := parse_undoes_spelling hwellFormed
  exact ⟨ts, hts, hparse ts hts⟩

end Dotlang
