import Dotlang.Proofs.Phrases

/-!
# Programs that are cut off

At the end of the tokens reading goes on: nothing is missing but what closes a block and what ends a `last` loop.

* `Read.Passes m ts` : `m` takes `ts`, or all that is left of it, and changes nothing else;
* `Read.Unwinds m p loops` : at the end of `p`, `m` closes blocks from within, each with a complaint, and misses `loops`
  conditions;
* `Read.Takes limit F m ts` : `m` takes `ts` before tokens that `F` holds of, and unwinds wherever `ts` is cut;
* `Read.takenAs_of_phrase` : so it is with every phrase;
* `complaints_of_truncated` : what is wrong with a program that is cut off.
-/

namespace Dotlang

/-! ## Chains that are cut -/

theorem readTerms_prefix {terms : List (Operator × Operand)} {ts p : List Token} (h : TermsSpelled terms ts)
    (hp : p <+: ts) : (Chain.readTerms p).2 = [] := by
  induction h generalizing p with
  | nil =>
    rw [List.prefix_nil.mp hp]
    rfl
  | @cons op terms t b ts ht _ hb _ ih =>
    rcases List.prefix_cons_iff.mp hp with rfl | ⟨p, rfl, hrhs⟩
    · rfl
    rcases List.prefix_cons_iff.mp hrhs with rfl | ⟨p, rfl, hts⟩
    · simp [Chain.readTerms, ht]
    · rw [Chain.readTerms, if_pos ht, if_pos hb]
      exact ih hts

/-- A chain that is cut is taken whole. -/
theorem Chain.read_prefix {c : Chain} {ts p : List Token} (h : c.Spelled ts) (hp : p <+: ts) :
    (Chain.read p).2 = [] := by
  obtain ⟨ht, hterms⟩ := h
  rcases List.prefix_cons_iff.mp hp with rfl | ⟨p, rfl, hts⟩
  · rfl
  · rw [Chain.read, if_pos ht]
    exact readTerms_prefix hterms hts

/-! ## Actions on flat tokens -/

namespace Read

variable {α β : Type}

/-- The action takes these tokens or, where they are cut, all that are left, and changes nothing else. -/
structure Passes (m : Read α) (ts : List Token) : Prop where
  whole : Eats Anywhere m ts fun _ => True
  cut : ∀ p, p <+: ts → ∀ opened ds, (exec m ⟨p, opened, ds⟩).2 = ⟨[], opened, ds⟩

namespace Passes

variable {ts us : List Token} {t : Token}

theorem pure (a : α) : Passes (Pure.pure a : Read α) [] := by
  refine ⟨.pure trivial, fun p hp opened ds => ?_⟩
  rw [List.prefix_nil.mp hp]
  rfl

theorem bind {m : Read α} {f : α → Read β} (hm : Passes m ts) (hf : ∀ a, Passes (f a) us) :
    Passes (m >>= f) (ts ++ us) := by
  refine ⟨hm.whole.bind (fun _ _ => trivial) fun a _ => (hf a).whole, fun p hp opened ds => ?_⟩
  rw [exec_bind]
  rcases prefix_of_append hp with hts | ⟨q, rfl, hus⟩
  · rw [hm.cut p hts]
    exact (hf _).cut [] List.nil_prefix opened ds
  · rw [(hm.whole q opened ds trivial).2]
    exact (hf _).cut q hus opened ds

theorem map {m : Read α} (f : α → β) (hm : Passes m ts) : Passes (f <$> m) ts :=
  ⟨.map hm.whole, fun p hp opened ds => hm.cut p hp opened ds⟩

theorem advance (t : Token) : Passes Read.advance [t] := by
  refine ⟨fun _ _ _ _ => ⟨trivial, rfl⟩, fun p hp opened ds => ?_⟩
  rcases List.prefix_cons_iff.mp hp with rfl | ⟨q, rfl, hq⟩
  · rfl
  · rw [List.prefix_nil.mp hq]
    rfl

theorem expect {kind : TokenKind} (ht : t.kind = kind) : Passes (Read.expect kind) [t] := by
  refine ⟨fun rest opened ds _ => ?_, fun p hp opened ds => ?_⟩
  · rw [List.singleton_append, exec_expect_cons, if_pos ht]
    exact ⟨trivial, rfl⟩
  · rcases List.prefix_cons_iff.mp hp with rfl | ⟨q, rfl, hq⟩
    · rfl
    · rw [exec_expect_cons, if_pos ht, List.prefix_nil.mp hq]

theorem chain_bind {c : Chain} {f : Option Chain → Read β} (hc : c.Spelled ts) (ht : t.kind ≠ .operator)
    (hf : ∀ c, Passes (f c) (t :: us)) : Passes (chain >>= f) (ts ++ t :: us) := by
  refine ⟨.chain_bind hc ht (hf _).whole, fun p hp opened ds => ?_⟩
  simp only [exec_bind, exec_chain]
  rcases prefix_of_append hp with hts | ⟨q, rfl, hus⟩
  · rw [Chain.read_prefix hc hts]
    exact (hf _).cut [] List.nil_prefix opened ds
  · have hq : NoOperator q := by
      rcases List.prefix_cons_iff.mp hus with rfl | ⟨q, rfl, -⟩
      · exact noOperator_nil
      · exact noOperator_cons ht q
    rw [Chain.read_of_spelled hc hq]
    exact (hf _).cut q hus opened ds

theorem untilParen_bind {f : List Token → Read β} (hts : ∀ u ∈ ts, u.kind ≠ .rparen) (ht : t.kind = .rparen)
    (hf : ∀ inside, Passes (f inside) (t :: us)) : Passes (untilParen >>= f) (ts ++ t :: us) := by
  refine ⟨.untilParen_bind hts ht (hf _).whole, fun p hp opened ds => ?_⟩
  have hinside : ∀ u ∈ ts, u.isInside = true := fun u hu => by simpa [Token.isInside] using hts u hu
  simp only [exec_bind, exec_untilParen]
  rcases prefix_of_append hp with hp | ⟨q, rfl, hus⟩
  · rw [List.dropWhile_eq_nil_iff.mpr fun u hu => hinside u (hp.subset hu)]
    exact (hf _).cut [] List.nil_prefix opened ds
  · have hq : q.dropWhile Token.isInside = q := by
      rcases List.prefix_cons_iff.mp hus with rfl | ⟨q, rfl, -⟩
      · rfl
      · exact List.dropWhile_cons_of_neg (by simp [Token.isInside, ht])
    rw [List.dropWhile_append_of_pos hinside, hq]
    exact (hf _).cut q hus opened ds

end Passes

section Forms

variable {ts : List Token} {c : Chain}

theorem passes_condition (h : ConditionSpelled c ts) : Passes condition ts := by
  obtain ⟨hl, hc, hr⟩ := h
  refine (Passes.expect hl).bind fun _ => Passes.chain_bind hc (by rw [hr]; decide) fun _ => ?_
  exact (Passes.expect hr).bind fun _ => .pure _

/-- The end of a declaration without a value. -/
theorem exec_declaration_plain {t name : Token} (ht : t.kind = .dataType) (hname : name.kind = .identifier)
    {rest : List Token} (hrest : ∀ u ∈ rest.head?, u.kind ≠ .assign) (opened : List Nat) (ds : List Diagnostic) :
    (exec declaration ⟨t :: name :: rest, opened, ds⟩).2 = (exec (expect .semicolon) ⟨rest, opened, ds⟩).2 := by
  have hassign : (rest.head?.any fun u => u.kind = .assign) = false := by
    cases rest with
    | nil => rfl
    | cons u rest => simpa using hrest u rfl
  simp [declaration, exec_expect_cons, ht, hname, hassign]

/-- The end of a declaration with a value. -/
theorem exec_declaration_valued {t name eq : Token} (ht : t.kind = .dataType) (hname : name.kind = .identifier)
    (heq : eq.kind = .assign) (rest : List Token) (opened : List Nat) (ds : List Diagnostic) :
    (exec declaration ⟨t :: name :: eq :: rest, opened, ds⟩).2 =
      (exec (chain >>= fun _ => expect .semicolon) ⟨rest, opened, ds⟩).2 := by
  simp [declaration, exec_expect_cons, ht, hname, heq]

theorem passes_declaration {d : Declaration} (h : d.Spelled ts) : Passes declaration ts := by
  refine ⟨(eats_declaration h).weaken (fun _ _ => trivial) fun _ _ => trivial, fun p hp opened ds => ?_⟩
  -- a declaration that is cut before its name does not get further
  have hname : ∀ {t name : Token} {us : List Token}, t.kind = .dataType → name.kind = .identifier →
      (∀ q, q <+: us → (exec declaration ⟨t :: name :: q, opened, ds⟩).2 = ⟨[], opened, ds⟩) →
      p <+: t :: name :: us → (exec declaration ⟨p, opened, ds⟩).2 = ⟨[], opened, ds⟩ := by
    intro t name us ht hname hus hp
    rcases List.prefix_cons_iff.mp hp with rfl | ⟨p₁, rfl, hp₁⟩
    · rfl
    rcases List.prefix_cons_iff.mp hp₁ with rfl | ⟨q, rfl, hq⟩
    · simp [declaration, exec_expect_cons, ht]
    · exact hus q hq
  cases h with
  | plain ht hidentifier hsemi =>
    refine hname (kind_of_dataType? ht) hidentifier (fun q hq => ?_) hp
    rw [exec_declaration_plain (kind_of_dataType? ht) hidentifier]
    · exact (Passes.expect hsemi).cut q hq opened ds
    · intro u hu
      rw [List.mem_singleton.mp (hq.subset (List.mem_of_mem_head? hu)), hsemi]
      decide
  | valued ht hidentifier heq hc hsemi =>
    refine hname (kind_of_dataType? ht) hidentifier (fun q hq => ?_) hp
    rcases List.prefix_cons_iff.mp hq with rfl | ⟨q, rfl, hvalue⟩
    · rw [exec_declaration_plain (kind_of_dataType? ht) hidentifier fun u hu => by cases hu]
      rfl
    · rw [exec_declaration_valued (kind_of_dataType? ht) hidentifier heq]
      exact (Passes.chain_bind hc (by rw [hsemi]; decide) fun _ => .expect hsemi).cut q hvalue opened ds

theorem passes_assignment {t eq semi : Token} (ht : t.kind = .identifier) (heq : eq.kind = .assign) (hc : c.Spelled ts)
    (hsemi : semi.kind = .semicolon) : Passes (assignment t) (t :: eq :: (ts ++ [semi])) := by
  refine (Passes.expect ht).bind fun _ => (Passes.expect heq).bind fun _ => ?_
  refine Passes.chain_bind hc (by rw [hsemi]; decide) fun _ => ?_
  exact (Passes.expect hsemi).bind fun _ => .pure _

theorem passes_call {t l r semi : Token} (builtin : Bool) (hl : l.kind = .lparen)
    (hts : ∀ u ∈ ts, u.isListed = true) (hr : r.kind = .rparen) (hsemi : semi.kind = .semicolon) :
    Passes (call t builtin) (t :: l :: (ts ++ [r, semi])) := by
  refine (Passes.advance t).bind fun _ => (Passes.expect hl).bind fun _ => ?_
  refine Passes.untilParen_bind (inside_of_listed hts) hr fun _ => ?_
  exact (Passes.expect hr).bind fun _ => (Passes.expect hsemi).bind fun _ => .pure _

theorem passes_leave {t semi : Token} (hsemi : semi.kind = .semicolon) : Passes (leave t) [t, semi] :=
  (Passes.advance t).bind fun _ => (Passes.expect hsemi).bind fun _ => .pure _

theorem passes_header {name l r : Token} (hname : name.kind = .identifier) (hl : l.kind = .lparen)
    (hts : ∀ u ∈ ts, u.isListed = true) (hr : r.kind = .rparen) : Passes header (name :: l :: (ts ++ [r])) := by
  refine (Passes.expect hname).bind fun _ => (Passes.expect hl).bind fun _ => ?_
  refine Passes.untilParen_bind (inside_of_listed hts) hr fun _ => ?_
  exact (Passes.expect hr).bind fun _ => .pure _

theorem passes_loopHeader {d : Declaration} {l semi r : Token} {ds cs : List Token} (hl : l.kind = .lparen)
    (hd : d.Spelled ds) (hc : c.Spelled cs) (hsemi : semi.kind = .semicolon) (hts : ∀ u ∈ ts, u.isListed = true)
    (hr : r.kind = .rparen) : Passes loopHeader (l :: (ds ++ (cs ++ semi :: (ts ++ [r])))) := by
  refine (Passes.expect hl).bind fun _ => (passes_declaration hd).bind fun _ => ?_
  refine Passes.chain_bind hc (by rw [hsemi]; decide) fun _ => (Passes.expect hsemi).bind fun _ => ?_
  refine Passes.untilParen_bind (inside_of_listed hts) hr fun _ => ?_
  exact (Passes.expect hr).bind fun _ => .pure _

end Forms

/-! ## Actions on tokens with blocks -/

/-- The complaints about the blocks that begin on these lines, in this order, and about so many `last` loops. -/
def Complaints (lines : List Nat) (loops : Nat) (ds : List Diagnostic) : Prop :=
  (ds.filter fun d => d.cause = .missingBrace) = lines.map (fun line => ⟨.missingBrace, some line⟩) ∧
    (ds.filter fun d => d.cause ≠ .missingBrace) = List.replicate loops ⟨.missingLoopCondition, none⟩

namespace Complaints

theorem nil : Complaints [] 0 [] := ⟨rfl, rfl⟩

theorem append {lines more : List Nat} {m n : Nat} {ds ds' : List Diagnostic} (h : Complaints lines m ds)
    (h' : Complaints more n ds') : Complaints (lines ++ more) (m + n) (ds ++ ds') := by
  refine ⟨?_, ?_⟩
  · rw [List.filter_append, h.1, h'.1, List.map_append]
  · rw [List.filter_append, h.2, h'.2, List.replicate_append_replicate]

theorem brace (line : Nat) : Complaints [line] 0 [⟨.missingBrace, some line⟩] := ⟨rfl, rfl⟩

theorem loop : Complaints [] 1 [⟨.missingLoopCondition, none⟩] := ⟨rfl, rfl⟩

end Complaints

/-- With these tokens the action comes to their end. It closes blocks that are left open, from within, and complains
about each of them and about so many `last` loops. -/
def Unwinds (m : Read α) (p : List Token) (loops : Nat) : Prop :=
  ∀ opened ds, ∃ lines left new, (exec m ⟨p, opened, ds⟩).2 = ⟨[], left, ds ++ new⟩ ∧
    lines ++ left = unclosed opened p ∧ left <:+ opened ∧ Complaints lines loops new

namespace Unwinds

variable {p : List Token}

/-- An action that changes nothing but the tokens. -/
theorem of_silent {m : Read α} (h : ∀ opened ds, (exec m ⟨p, opened, ds⟩).2 = ⟨[], opened, ds⟩)
    (hp : Balanced p) : Unwinds m p 0 := by
  intro opened ds
  refine ⟨[], opened, [], ?_, ?_, List.suffix_refl opened, .nil⟩
  · rw [h, List.append_nil]
  · rw [← List.append_nil p, hp.unclosed_append]
    rfl

theorem bind {m : Read α} {f : α → Read β} {n k : Nat} (hm : Unwinds m p n) (hf : ∀ a, Unwinds (f a) [] k) :
    Unwinds (m >>= f) p (n + k) := by
  intro opened ds
  obtain ⟨lines, left, new, hstate, hlines, hleft, hnew⟩ := hm opened ds
  obtain ⟨lines', left', new', hstate', hlines', hleft', hnew'⟩ := hf (exec m ⟨p, opened, ds⟩).1 left (ds ++ new)
  refine ⟨lines ++ lines', left', new ++ new', ?_, ?_, hleft'.trans hleft, hnew.append hnew'⟩
  · rw [exec_bind, hstate, hstate', List.append_assoc]
  · rw [List.append_assoc, hlines', ← hlines]
    rfl

end Unwinds

/-- On lists of at most `limit` tokens: before tokens that `F` holds of, the action takes exactly these and changes
nothing else, and where they are cut, but not before the first, it unwinds. -/
structure Begins (limit : Nat) (F : List Token → Prop) (m : Read α) (ts : List Token) : Prop where
  whole : ts.length ≤ limit → Eats F m ts fun _ => True
  cut : ∀ p, p <+: ts → p ≠ [] → p.length ≤ limit → Unwinds m p (unfinished p)

/-- And if there are no tokens at all, it unwinds too. -/
structure Takes (limit : Nat) (F : List Token → Prop) (m : Read α) (ts : List Token) : Prop extends
    Begins limit F m ts where
  idle : Unwinds m [] 0

theorem Takes.unwinds {limit : Nat} {F : List Token → Prop} {m : Read α} {ts p : List Token} (h : Takes limit F m ts)
    (hp : p <+: ts) (hlimit : p.length ≤ limit) : Unwinds m p (unfinished p) := by
  by_cases hnil : p = []
  · rw [hnil]
    exact h.idle
  · exact h.cut p hp hnil hlimit

theorem Passes.takes {m : Read α} {ts : List Token} (h : Passes m ts) (hts : Flat ts) (limit : Nat)
    (F : List Token → Prop) : Takes limit F m ts where
  whole _ := h.whole.weaken (fun _ _ => trivial) fun _ _ => trivial
  cut p hp _ _ := by
    have hflat := hts.of_prefix hp
    have hnone : unfinished p = 0 := by
      rw [← List.append_nil p, unfinished_flat hflat]
      rfl
    rw [hnone]
    exact .of_silent (h.cut p hp) hflat.balanced
  idle := .of_silent (h.cut [] List.nil_prefix) .nil

namespace Begins

variable {F G : List Token → Prop} {ts us : List Token} {limit : Nat}

/-- The tokens are cut behind those that an action takes. -/
theorem unwinds_bind {m : Read α} {f : α → Read β} {q : List Token} {loops : Nat} (hm : Begins limit F m ts)
    (hts : Complete ts) (hlength : ts.length ≤ limit) (hq : F q) (hf : ∀ a, Unwinds (f a) q loops) :
    Unwinds (m >>= f) (ts ++ q) loops := by
  intro opened ds
  rw [exec_bind, (hm.whole hlength q opened ds hq).2, hts.balanced.unclosed_append]
  exact hf _ opened ds

theorem bind {m : Read α} {f : α → Read β} {k : Nat} (hm : Begins limit F m ts) (hts : Complete ts)
    (hk : limit ≤ ts.length + k) (hF : ∀ rest, G rest → F (us ++ rest)) (hF' : ∀ q, q <+: us → F q)
    (hf : ∀ a, Takes k G (f a) us) : Begins limit G (m >>= f) (ts ++ us) where
  whole hlength := by
    rw [List.length_append] at hlength
    exact (hm.whole (by omega)).bind hF fun a _ => (hf a).whole (by omega)
  cut p hp hne hlength := by
    rcases prefix_of_append hp with hin | ⟨q, rfl, hq⟩
    · exact (hm.cut p hin hne hlength).bind fun a => (hf a).idle
    · rw [List.length_append] at hlength
      rw [hts.finished]
      exact hm.unwinds_bind hts (by omega) (hF' q hq) fun a => (hf a).unwinds hq (by omega)

theorem map {m : Read α} (f : α → β) (hm : Begins limit F m ts) : Begins limit F (f <$> m) ts where
  whole hlength := .map (hm.whole hlength)
  cut p hp hne hlength opened ds := hm.cut p hp hne hlength opened ds

/-- Only what the action does where these tokens begin counts. -/
theorem congr {t : Token} {m : Read α} {m' : Read β} (h : Begins limit F m' (t :: ts))
    (heq : ∀ rest opened ds, (exec m ⟨t :: rest, opened, ds⟩).2 = (exec m' ⟨t :: rest, opened, ds⟩).2) :
    Begins limit F m (t :: ts) where
  whole hlength rest opened ds hrest := by
    refine ⟨trivial, ?_⟩
    rw [List.cons_append, heq]
    exact (h.whole hlength rest opened ds hrest).2
  cut p hp hne hlength := by
    obtain rfl | ⟨q, rfl, -⟩ := List.prefix_cons_iff.mp hp
    · exact absurd rfl hne
    · intro opened ds
      rw [heq]
      exact h.cut _ hp hne hlength opened ds

end Begins

namespace Takes

variable {F G : List Token → Prop} {ts us : List Token} {limit : Nat}

theorem bind {m : Read α} {f : α → Read β} {k : Nat} (hm : Takes limit Anywhere m ts) (hts : Complete ts)
    (hk : limit ≤ ts.length + k) (hf : ∀ a, Takes k G (f a) us) : Takes limit G (m >>= f) (ts ++ us) where
  toBegins := hm.toBegins.bind hts hk (fun _ _ => trivial) (fun _ _ => trivial) hf
  idle := hm.idle.bind fun a => (hf a).idle

theorem map {m : Read α} (f : α → β) (hm : Takes limit G m ts) : Takes limit G (f <$> m) ts where
  toBegins := hm.toBegins.map f
  idle opened ds := hm.idle opened ds

theorem anywhere {m : Read α} (hm : Takes limit Anywhere m ts) : Takes limit G m ts :=
  { hm with whole := fun hlength => (hm.whole hlength).weaken (fun _ _ => trivial) fun _ _ => trivial }

theorem mono {m : Read α} {k : Nat} (hm : Takes limit G m ts) (hk : k ≤ limit) : Takes k G m ts :=
  { hm with
    whole := fun hlength => hm.whole (Nat.le_trans hlength hk)
    cut := fun p hp hne hlength => hm.cut p hp hne (Nat.le_trans hlength hk) }

/-- An action behind flat tokens. -/
theorem flat_bind {m : Read α} {f : α → Read β} (hm : Passes m ts) (hts : Flat ts)
    (hf : ∀ a, Takes limit G (f a) us) : Takes limit G (m >>= f) (ts ++ us) :=
  (hm.takes hts limit Anywhere).bind (.of_flat hts) (Nat.le_add_left limit ts.length) hf

/-- An action behind one flat token. -/
theorem advance_bind {t : Token} {f : Unit → Read β} {k : Nat} (ht : t.isFlat) (hk : limit ≤ k + 1)
    (hf : Takes k G (f ()) us) : Takes limit G (advance >>= f) (t :: us) := by
  have hflat : Flat [t] := .cons ht .nil
  refine ((Passes.advance t).takes hflat limit Anywhere).bind (.of_flat hflat) ?_ fun _ => hf
  rwa [List.length_singleton, Nat.add_comm]

/-- An action that depends on how many tokens are left. -/
theorem get_bind {f : Nat → Read α} (h : ∀ n, Takes (min limit n) G (f n) ts) :
    Takes limit G (get >>= fun r => f r.rest.length) ts where
  whole hlength rest opened ds hrest := by
    rw [exec_bind, exec_get]
    refine (h _).whole (Nat.le_min.mpr ⟨hlength, ?_⟩) rest opened ds hrest
    rw [List.length_append]
    exact Nat.le_add_right _ _
  cut p hp hne hlength opened ds := by
    rw [exec_bind, exec_get]
    exact (h _).cut p hp hne (Nat.le_min.mpr ⟨hlength, Nat.le_refl _⟩) opened ds
  idle opened ds := (h 0).idle opened ds

end Takes

/-! ## Blocks -/

/-- A block that is cut is closed before those around it. -/
theorem Unwinds.close {m : Read (List Statement)} {p : List Token} {loops : Nat} (h : Unwinds m p loops) (line : Nat)
    (opened : List Nat) (ds : List Diagnostic) :
    ∃ lines left new, (exec closeBlock (exec m ⟨p, line :: opened, ds⟩).2).2 = ⟨[], left, ds ++ new⟩ ∧
      lines ++ left = unclosed (line :: opened) p ∧ left <:+ opened ∧ Complaints lines loops new := by
  obtain ⟨lines, left, new, hstate, hlines, hleft, hnew⟩ := h (line :: opened) ds
  rw [hstate]
  cases left with
  | nil => exact ⟨lines, [], new, rfl, hlines, List.nil_suffix, hnew⟩
  | cons inner outer =>
    refine ⟨lines ++ [inner], outer, new ++ [⟨.missingBrace, some inner⟩], ?_, ?_, ?_, hnew.append (.brace inner)⟩
    · rw [← List.append_assoc]
      rfl
    · rw [List.append_assoc, List.singleton_append, hlines]
    · rcases List.suffix_cons_iff.mp hleft with heq | hsuffix
      · rw [(List.cons.inj heq).2]
      · exact (List.suffix_cons inner outer).trans hsuffix

theorem unwinds_closeBlock : Unwinds closeBlock [] 0 := by
  intro opened ds
  cases opened with
  | nil => exact ⟨[], [], [], by rw [List.append_nil]; rfl, rfl, List.suffix_refl _, .nil⟩
  | cons line outer => exact ⟨[line], outer, _, rfl, rfl, List.suffix_cons line outer, .brace line⟩

theorem takes_braced {items : Read (List Statement)} {l r : Token} {ts : List Token} {limit : Nat}
    (hl : l.kind = .lcurly) (hr : r.kind = .rcurly) (hts : Complete ts) (h : Takes limit AtEnd items ts) :
    Takes (limit + 1) Anywhere (braced items) (l :: (ts ++ [r])) := by
  have hwhole : ts.length ≤ limit → Eats Anywhere (braced items) (l :: (ts ++ [r])) fun _ => True :=
    fun hlength => eats_braced hl hr (h.whole hlength)
  refine ⟨⟨fun hlength => hwhole ?_, fun p hp hne hlength => ?_⟩, ?_⟩
  · simp only [List.length_cons, List.length_append] at hlength
    omega
  · rcases prefix_of_block hp with rfl | ⟨q, rfl, hq⟩ | ⟨q, rfl, hq⟩
    · exact absurd rfl hne
    · -- the block is cut
      rw [List.length_cons] at hlength
      intro opened ds
      rw [unfinished_brace (by simp [Token.isBrace, hl]), unclosed_lcurly hl]
      have hclose := (h.unwinds hq (by omega)).close l.line opened ds
      simpa [braced, exec_expect_cons, hl] using hclose
    · -- it is whole
      obtain rfl := List.prefix_nil.mp hq
      have hcomplete := Complete.block hl hts hr
      have hnone : unfinished (l :: (ts ++ [r])) = 0 := by
        rw [← List.append_nil (l :: (ts ++ [r])), hcomplete.finished]
        rfl
      rw [hnone]
      refine .of_silent (fun opened ds => ?_) hcomplete.balanced
      simp only [List.length_cons, List.length_append] at hlength
      have hstate := (hwhole (by omega) [] opened ds trivial).2
      rwa [List.append_nil] at hstate
  · have hskip : ∀ {γ : Type} (m : Read γ), (∀ opened ds, (exec m ⟨[], opened, ds⟩).2 = ⟨[], opened, ds⟩) →
        Unwinds m [] 0 := fun m hm => .of_silent hm .nil
    refine (hskip openBlock fun _ _ => rfl).bind (k := 0) fun _ => ?_
    refine (hskip (expect .lcurly) fun _ _ => rfl).bind (k := 0) fun _ => ?_
    refine h.idle.bind (k := 0) fun _ => unwinds_closeBlock.bind (k := 0) fun _ => ?_
    exact hskip _ fun _ _ => rfl

theorem takes_items_nil (fuel limit : Nat) : Takes limit AtEnd (items fuel) [] := by
  refine ⟨⟨fun _ rest opened ds hrest => ⟨trivial, ?_⟩, fun _ hp hne => absurd (List.prefix_nil.mp hp) hne⟩, ?_⟩
  · cases fuel with
    | zero => rfl
    | succ fuel =>
      cases rest with
      | nil => rfl
      | cons t rest =>
        have ht := hrest t rfl
        simp [items, ht]
  · refine .of_silent (fun opened ds => ?_) .nil
    cases fuel <;> rfl

theorem takes_items_cons {fuel : Nat} {t : Token} {ts us : List Token} (ht : t.kind ≠ .rcurly)
    (hs : Begins (fuel + 1) NoBranch (statement (braced (items fuel)) t) (t :: ts)) (hts : Complete (t :: ts))
    (hus : Phrase .statements us) (h : Takes fuel AtEnd (items fuel) us) :
    Takes (fuel + 1) AtEnd (items (fuel + 1)) (t :: ts ++ us) where
  toBegins := by
    have hboth : Begins (fuel + 1) AtEnd (statement (braced (items fuel)) t >>= fun s =>
        (fun more => s.toList ++ more) <$> items fuel) (t :: ts ++ us) := by
      refine hs.bind (k := fuel) hts ?_ (fun _ hrest => hus.noBranch hrest) (fun _ hq => hus.noBranch_prefix hq) ?_
      · rw [List.length_cons]
        omega
      · exact fun s => h.map _
    refine hboth.congr fun rest opened ds => ?_
    simp [items, ht]
  idle := .of_silent (fun _ _ => rfl) .nil

/-! ## Alternatives -/

/-- Nothing is left to take. -/
theorem Begins.zero {F : List Token → Prop} (m : Read α) {ts : List Token} (hts : ts ≠ []) : Begins 0 F m ts where
  whole hlength := absurd (List.length_eq_zero_iff.mp (Nat.le_zero.mp hlength)) hts
  cut _ _ hne hlength := absurd (List.length_eq_zero_iff.mp (Nat.le_zero.mp hlength)) hne

section Compound

variable {block : Read (List Statement)} {limit : Nat} {ts us : List Token} {c : Chain}

theorem idle_alternatives (n : Nat) : Unwinds (alternatives block n) [] 0 := by
  refine .of_silent (fun opened ds => ?_) .nil
  cases n <;> rfl

theorem takes_done (n : Nat) : Takes limit NoBranch (alternatives block n) [] where
  whole _ := (eats_done n).weaken (fun _ h => h) fun _ _ => trivial
  cut _ hp hne := absurd (List.prefix_nil.mp hp) hne
  idle := idle_alternatives n

/-- What follows the block of a `last` loop. -/
def loopEnd (first : Token) (body : List Statement) : Read Statement := do
  if ← startsWithKeyword .wish then
    advance
    let cond ← condition
    let _ ← expect .semicolon
    return .doWhile first.position body cond
  else
    complain .missingLoopCondition ((← current).map Token.line)
    return .doWhile first.position body none

theorem doWhile_eq (block : Read (List Statement)) (first : Token) :
    doWhile block first = advance >>= fun _ => block >>= loopEnd first := rfl

theorem unwinds_loopEnd (t : Token) (body : List Statement) : Unwinds (loopEnd t body) [] 1 :=
  fun opened _ => ⟨[], opened, _, rfl, rfl, List.suffix_refl opened, .loop⟩

/-- Before a `wish` the loop does not miss its end, wherever that is cut. -/
theorem begins_loopEnd {w semi : Token} (t : Token) (body : List Statement) (hw : w.keyword? = some .wish)
    (hc : ConditionSpelled c ts) (hsemi : semi.kind = .semicolon) :
    Begins limit Anywhere (loopEnd t body) (w :: (ts ++ [semi])) := by
  have htake : Takes limit Anywhere (advance >>= fun _ => condition >>= fun cond => expect .semicolon >>= fun _ =>
      pure (Statement.doWhile t.position body cond)) (w :: (ts ++ [semi])) := by
    refine .advance_bind (flat_keyword hw (by decide)) (Nat.le_succ limit) ?_
    refine .flat_bind (passes_condition hc) (.condition hc) fun cond => ?_
    exact .flat_bind (.expect hsemi) (.cons (flat_token hsemi rfl) .nil) fun _ => (Passes.pure _).takes .nil limit _
  refine htake.toBegins.congr fun rest opened ds => ?_
  simp [loopEnd, hw]

variable (hblock : Takes limit Anywhere block us)
include hblock

theorem takes_otherwise {t : Token} (ht : t.keyword? = some .naioye) (n : Nat) :
    Takes (min limit n) NoBranch (alternatives block n) (t :: us) where
  toBegins := by
    cases n with
    | zero =>
      rw [Nat.min_zero]
      exact .zero _ (List.cons_ne_nil _ _)
    | succ n =>
      have htake : Takes (min limit (n + 1)) NoBranch (advance >>= fun _ => Alternatives.otherwise <$> block)
          (t :: us) := .advance_bind (flat_keyword ht (by decide)) (by omega) (hblock.map _).anywhere
      refine htake.toBegins.congr fun rest opened ds => ?_
      simp [alternatives, ht]
  idle := idle_alternatives n

theorem takes_branch {t : Token} {vs : List Token} (ht : t.keyword? = some .chaloye) (hc : ConditionSpelled c ts)
    (hus : Complete us) (ha : ∀ n, Takes (min limit n) NoBranch (alternatives block n) vs) (n : Nat) :
    Takes (min limit n) NoBranch (alternatives block n) (t :: (ts ++ (us ++ vs))) where
  toBegins := by
    cases n with
    | zero =>
      rw [Nat.min_zero]
      exact .zero _ (List.cons_ne_nil _ _)
    | succ n =>
      have htake : Takes (min limit (n + 1)) NoBranch (advance >>= fun _ => condition >>= fun cond => block >>= fun b =>
          Alternatives.branch cond b <$> alternatives block n) (t :: (ts ++ (us ++ vs))) := by
        refine .advance_bind (k := min limit n) (flat_keyword ht (by decide)) (by omega) ?_
        refine .flat_bind (passes_condition hc) (.condition hc) fun _ => ?_
        exact (hblock.mono (Nat.min_le_left _ _)).bind hus (Nat.le_add_left _ _) fun _ => (ha n).map _
      refine htake.toBegins.congr fun rest opened ds => ?_
      simp [alternatives, ht]
  idle := idle_alternatives n

theorem takes_conditional {t : Token} {vs : List Token} (ht : t.keyword? = some .oye) (hc : ConditionSpelled c ts)
    (hus : Complete us) (ha : ∀ n, Takes (min limit n) NoBranch (alternatives block n) vs) :
    Takes limit NoBranch (conditional block t) (t :: (ts ++ (us ++ vs))) := by
  refine .advance_bind (flat_keyword ht (by decide)) (Nat.le_succ limit) ?_
  refine .flat_bind (passes_condition hc) (.condition hc) fun cond => ?_
  refine hblock.bind hus (Nat.le_add_left _ _) fun body => ?_
  let rest (n : Nat) := Statement.conditional t.position cond body <$> alternatives block n
  exact .get_bind (f := rest) fun n => (ha n).map _

theorem takes_whileLoop {t : Token} (ht : t.keyword? = some .wish) (hc : ConditionSpelled c ts) :
    Takes limit NoBranch (whileLoop block t) (t :: (ts ++ us)) := by
  refine .advance_bind (flat_keyword ht (by decide)) (Nat.le_succ limit) ?_
  refine .flat_bind (passes_condition hc) (.condition hc) fun cond => ?_
  exact (hblock.map (Statement.whileLoop t.position cond)).anywhere

theorem takes_counting {d : Declaration} {t l semi r : Token} {ds cs : List Token} (ht : t.keyword? = some .first)
    (hl : l.kind = .lparen) (hd : d.Spelled ds) (hc : c.Spelled cs) (hsemi : semi.kind = .semicolon)
    (hts : ∀ u ∈ ts, u.isListed = true) (hr : r.kind = .rparen) :
    Takes limit NoBranch (counting block t) (t :: (l :: (ds ++ (cs ++ semi :: (ts ++ [r]))) ++ us)) := by
  rw [counting_eq]
  refine .advance_bind (flat_keyword ht (by decide)) (Nat.le_succ limit) ?_
  have hflat := Flat.loopHeader hl hd hc hsemi hts hr
  refine .flat_bind (passes_loopHeader hl hd hc hsemi hts hr) hflat fun (init, cond, step) => ?_
  exact (hblock.map (Statement.counting t.position init cond step)).anywhere

theorem takes_function {t name l r : Token} (ht : t.keyword? = some .ex) (hname : name.kind = .identifier)
    (hl : l.kind = .lparen) (hts : ∀ u ∈ ts, u.isListed = true) (hr : r.kind = .rparen) :
    Takes limit NoBranch (function block t) (t :: (name :: l :: (ts ++ [r]) ++ us)) := by
  rw [function_eq]
  refine .advance_bind (flat_keyword ht (by decide)) (Nat.le_succ limit) ?_
  refine .flat_bind (passes_header hname hl hts hr) (.header hname hl hts hr) fun (name, params) => ?_
  exact (hblock.map (Statement.function t.position name params)).anywhere

theorem begins_doWhile {t w semi : Token} (ht : t.keyword? = some .last) (hin : InBraces us) (hus : Complete us)
    (hw : w.keyword? = some .wish) (hc : ConditionSpelled c ts) (hsemi : semi.kind = .semicolon) :
    Begins limit NoBranch (doWhile block t) (t :: (us ++ w :: (ts ++ [semi]))) := by
  rw [doWhile_eq]
  have hend : ∀ body, Begins limit Anywhere (loopEnd t body) (w :: (ts ++ [semi])) :=
    fun body => begins_loopEnd t body hw hc hsemi
  refine ⟨fun hlength => ?_, fun p hp hne hlength => ?_⟩
  · rw [List.length_cons, List.length_append] at hlength
    have hbody := (hblock.whole (by omega)).bind (fun _ _ => trivial) fun body _ => (hend body).whole (by omega)
    exact (Eats.advance_bind hbody).weaken (fun _ _ => trivial) fun _ _ => trivial
  · obtain rfl | ⟨p, rfl, hp'⟩ := List.prefix_cons_iff.mp hp
    · exact absurd rfl hne
    have htoken : t.isBrace = false := Token.isBrace_of_kind (kind_of_keyword? ht) (by decide) (by decide)
    suffices hrest : Unwinds (block >>= loopEnd t) p (unfinished (t :: p)) by
      intro opened ds
      rw [unclosed_other htoken]
      exact hrest opened ds
    rw [List.length_cons] at hlength
    rcases prefix_of_append hp' with hcut | ⟨q, rfl, hq⟩
    · rw [unfinished_last ht hin hcut]
      exact (hblock.unwinds hcut (by omega)).bind (unwinds_loopEnd t)
    · rw [List.length_append] at hlength
      rcases List.prefix_cons_iff.mp hq with rfl | ⟨q, rfl, -⟩
      · -- the block is whole, and nothing follows
        rw [List.append_nil, unfinished_last ht hin (List.prefix_refl us)]
        exact (hblock.unwinds (List.prefix_refl us) (by omega)).bind (unwinds_loopEnd t)
      · rw [unfinished_last_wish hin hw, hus.finished]
        refine hblock.unwinds_bind hus (by omega) trivial fun body => ?_
        exact (hend body).cut _ hq (List.cons_ne_nil _ _) (by omega)

end Compound

/-! ## Phrases -/

/-- How a phrase is read. -/
def TakenAs : Nonterminal → List Token → Prop
  | .block, ts => ∀ fuel, Takes (fuel + 1) Anywhere (braced (items fuel)) ts
  | .statements, ts => ∀ fuel, Takes fuel AtEnd (items fuel) ts
  | .alternatives, ts => ∀ fuel n, Takes (min (fuel + 1) n) NoBranch (alternatives (braced (items fuel)) n) ts
  | .statement, ts => ∀ t ∈ ts.head?, ∀ fuel, Begins (fuel + 1) NoBranch (statement (braced (items fuel)) t) ts

/-- A name is told apart by the token behind it. -/
theorem passes_statement_name (block : Read (List Statement)) {t next : Token} {ts : List Token}
    (ht : t.kind = .identifier) {m : Read Statement}
    (hm : (next.kind = .assign ∧ m = assignment t) ∨ (next.kind = .lparen ∧ m = call t false))
    (h : Passes m (t :: next :: ts)) : Passes (statement block t) (t :: next :: ts) := by
  have hboth : ∀ rest opened ds, (exec (statement block t) ⟨t :: next :: rest, opened, ds⟩).2 =
      (exec m ⟨t :: next :: rest, opened, ds⟩).2 := by
    intro rest opened ds
    rcases hm with ⟨hnext, rfl⟩ | ⟨hnext, rfl⟩
    all_goals simp [statement, ht, hnext]
  refine ⟨fun rest opened ds _ => ⟨trivial, ?_⟩, fun p hp opened ds => ?_⟩
  · rw [List.cons_append, List.cons_append, hboth]
    exact (h.whole rest opened ds trivial).2
  · rcases List.prefix_cons_iff.mp hp with rfl | ⟨p, rfl, hnext⟩
    · simp [statement, ht, drop]
    rcases List.prefix_cons_iff.mp hnext with rfl | ⟨p, rfl, -⟩
    · simp [statement, ht, drop]
    · rw [hboth]
      exact h.cut _ hp opened ds

theorem takenAs_of_phrase {form : Nonterminal} {ts : List Token} (h : Phrase form ts) : TakenAs form ts := by
  induction h with
  | block hl h hr ih => exact fun fuel => takes_braced hl hr h.complete (ih fuel)
  | nil => exact fun fuel => takes_items_nil fuel fuel
  | cons hs h ihs ih =>
    obtain ⟨t, us, rfl, ht, -⟩ := hs.first
    rintro (_ | fuel)
    · exact ⟨.zero _ (List.cons_ne_nil _ _), .of_silent (fun _ _ => rfl) .nil⟩
    · exact takes_items_cons ht (ihs t rfl fuel) hs.complete h (ih fuel)
  | done => exact fun fuel n => takes_done n
  | otherwise ht _ ih => exact fun fuel n => takes_otherwise (ih fuel) ht n
  | branch ht hc h _ ih iha => exact fun fuel n => takes_branch (ih fuel) ht hc h.complete (iha fuel) n
  | inner h ih =>
    intro t ht fuel
    have hkind : t.kind = .lcurly := by
      cases h with
      | block hl => rwa [← Option.some.inj ht]
    simp only [statement, hkind]
    exact (((ih fuel).map (Statement.block t.position)).map some).anywhere.toBegins
  | declaration h =>
    intro t ht fuel
    have hkind : t.kind = .dataType := by
      cases h with
      | plain htype | valued htype => rw [← Option.some.inj ht, kind_of_dataType? htype]
    simp only [statement, hkind]
    exact (((passes_declaration h).map _).takes (.declaration h) _ _).toBegins
  | assignment ht heq hc hsemi =>
    rintro _ ⟨⟩ fuel
    have hpass := passes_statement_name (braced (items fuel)) ht (Or.inl ⟨heq, rfl⟩)
      (passes_assignment ht heq hc hsemi)
    exact (hpass.takes (.assignment ht heq hc hsemi) _ _).toBegins
  | call ht hl hts hr hsemi =>
    rintro t ⟨⟩ fuel
    have hflat := Flat.call ht hl hts hr hsemi
    rcases ht with hname | ⟨k, hk, ht⟩
    · have hpass := passes_statement_name (braced (items fuel)) hname (Or.inr ⟨hl, rfl⟩)
        (passes_call false hl hts hr hsemi)
      exact (hpass.takes hflat _ _).toBegins
    · rw [statement_call hk ht]
      exact (((passes_call true hl hts hr hsemi).map some).takes hflat _ _).toBegins
  | leave ht hsemi =>
    rintro _ ⟨⟩ fuel
    simp only [statement, kind_of_keyword? ht, ht]
    exact (((passes_leave hsemi).map some).takes (.leave ht hsemi) _ _).toBegins
  | conditional ht hc h _ ih iha =>
    rintro _ ⟨⟩ fuel
    simp only [statement, kind_of_keyword? ht, ht]
    exact ((takes_conditional (ih fuel) ht hc h.complete (iha fuel)).map some).toBegins
  | whileLoop ht hc _ ih =>
    rintro _ ⟨⟩ fuel
    simp only [statement, kind_of_keyword? ht, ht]
    exact ((takes_whileLoop (ih fuel) ht hc).map some).toBegins
  | doWhile ht h hw hc hsemi ih =>
    rintro _ ⟨⟩ fuel
    simp only [statement, kind_of_keyword? ht, ht]
    exact (begins_doWhile (ih fuel) ht h.inBraces h.complete hw hc hsemi).map some
  | counting ht hl hd hc hsemi hss hr _ ih =>
    rintro _ ⟨⟩ fuel
    simp only [statement, kind_of_keyword? ht, ht]
    exact ((takes_counting (ih fuel) ht hl hd hc hsemi hss hr).map some).toBegins
  | function ht hname hl hts hr _ ih =>
    rintro _ ⟨⟩ fuel
    simp only [statement, kind_of_keyword? ht, ht]
    exact ((takes_function (ih fuel) ht hname hl hts hr).map some).toBegins

end Read

/-! ## Programs -/

/-- How a program ends that is cut off. -/
theorem exists_of_truncated {tokens p : List Token} (h : Phrase .statements tokens) (hp : p <+: tokens) :
    ∃ ds, ((Read.program p.length).run ⟨p, [], []⟩).2 = ⟨[], [], ds⟩ ∧
      Read.Complaints (unclosed [] p) (unfinished p) ds := by
  cases p with
  | nil => exact ⟨[], rfl, .nil⟩
  | cons t ts =>
    have htaken : Read.Takes (ts.length + 1) Read.AtEnd (Read.items (ts.length + 1)) tokens :=
      Read.takenAs_of_phrase h (ts.length + 1)
    obtain ⟨lines, left, new, hstate, hlines, hleft, hnew⟩ :=
      htaken.cut (t :: ts) hp (List.cons_ne_nil t ts) (Nat.le_refl _) [] []
    obtain rfl := List.suffix_nil.mp hleft
    rw [List.append_nil] at hlines
    subst hlines
    refine ⟨new, ?_, hnew⟩
    change (Read.exec (Read.program (ts.length + 1)) ⟨t :: ts, [], []⟩).2 = _
    simp only [Read.program, Read.exec_bind, Read.exec_current, hstate, List.head?_nil, Read.exec_pure,
      List.nil_append]

/-- **Where a program is cut off, every block that is open is reported with its line, from within, every `last` loop
whose `wish` is missing is reported without a line, nothing else is reported, and no block stays open.** -/
theorem complaints_of_truncated {tokens p : List Token} (h : Phrase .statements tokens) (hp : p <+: tokens) :
    ((parse p).diagnostics.filter fun d => d.cause = .missingBrace) =
        (unclosed [] p).map (fun line => ⟨.missingBrace, some line⟩) ∧
      ((parse p).diagnostics.filter fun d => d.cause ≠ .missingBrace) =
        List.replicate (unfinished p) ⟨.missingLoopCondition, none⟩ ∧
      ((Read.program p.length).run ⟨p, [], []⟩).2.opened = [] := by
  obtain ⟨ds, hstate, hbraces, hloops⟩ := exists_of_truncated h hp
  have hparse : (parse p).diagnostics = ds := by
    show ((Read.program p.length).run ⟨p, [], []⟩).2.diagnostics = ds
    rw [hstate]
  rw [hparse, hstate]
  exact ⟨hbraces, hloops, rfl⟩

/-- `last {`, `wish (i) {` and `last {` on three lines, and all that closes them. -/
def nestedLoops : List Token :=
  let opening (line : Nat) : Token := ⟨.lcurly, "\x7b", line, 1, 2⟩
  let close : Token := ⟨.rcurly, "\x7d", 4, 1, 2⟩
  let last (line : Nat) : Token := ⟨.keyword, "last", line, 1, 5⟩
  let wish : Token := ⟨.keyword, "wish", 2, 1, 5⟩
  let cond : List Token := [⟨.lparen, "(", 2, 5, 6⟩, ⟨.identifier, "i", 2, 6, 7⟩, ⟨.rparen, ")", 2, 7, 8⟩]
  let semi : Token := ⟨.semicolon, ";", 4, 8, 9⟩
  let inner := last 3 :: ((opening 3 :: ([] ++ [close])) ++ wish :: (cond ++ [semi]))
  let middle := wish :: (cond ++ (opening 2 :: ((inner ++ []) ++ [close])))
  (last 1 :: ((opening 1 :: ((middle ++ []) ++ [close])) ++ wish :: (cond ++ [semi]))) ++ []

theorem complaints_of_truncated_nestedLoops :
    Phrase .statements nestedLoops ∧ nestedLoops.take 9 <+: nestedLoops ∧
      ((parse (nestedLoops.take 9)).diagnostics.filter fun d => d.cause = .missingBrace) =
        [⟨.missingBrace, some 3⟩, ⟨.missingBrace, some 2⟩, ⟨.missingBrace, some 1⟩] ∧
      ((parse (nestedLoops.take 9)).diagnostics.filter fun d => d.cause ≠ .missingBrace) =
        [⟨.missingLoopCondition, none⟩, ⟨.missingLoopCondition, none⟩] ∧
      ((Read.program (nestedLoops.take 9).length).run ⟨nestedLoops.take 9, [], []⟩).2.opened = [] := by
  have hcond : ConditionSpelled ⟨Token.operand ⟨.identifier, "i", 2, 6, 7⟩, []⟩
      (⟨.lparen, "(", 2, 5, 6⟩ :: ([⟨.identifier, "i", 2, 6, 7⟩] ++ [⟨.rparen, ")", 2, 7, 8⟩])) :=
    .mk rfl (.mk rfl .nil) rfl
  have hphrase : Phrase .statements nestedLoops := by
    refine .cons (.doWhile rfl (.block rfl ?_ rfl) rfl hcond rfl) .nil
    refine .cons (.whileLoop rfl hcond (.block rfl ?_ rfl)) .nil
    exact .cons (.doWhile rfl (.block rfl .nil rfl) rfl hcond rfl) .nil
  have hprefix := List.take_prefix 9 nestedLoops
  obtain ⟨hbraces, hloops, hopened⟩ := complaints_of_truncated hphrase hprefix
  exact ⟨hphrase, hprefix, hbraces, hloops, hopened⟩

end Dotlang
