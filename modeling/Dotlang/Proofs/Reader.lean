import Dotlang.Statement.Parser
import Mathlib

/-!
# What actions on a token list do

* `Read.exec` : what an action returns and leaves, with one equation for each action;
* `Chain.read_suffix` : a chain is taken from the front;
* `Gives tokens m Q` : run on what is left of `tokens`, `m` returns something that `Q` holds of and leaves
  less of `tokens`. One lemma for each way to build actions.
-/

namespace Dotlang

/-! ## Chains -/

theorem Chain.readTerms_suffix (ts : List Token) : (Chain.readTerms ts).2 <:+ ts := by
  fun_induction Chain.readTerms ts with
  | case1 op rhs ts hop hrhs terms after heq ih =>
    rw [heq] at ih
    exact ih.trans ((List.suffix_cons rhs ts).trans (List.suffix_cons op _))
  | case2 op rhs ts => exact List.suffix_cons op _
  | case3 op rhs ts => exact List.suffix_refl _
  | case4 op => split <;> simp
  | case5 => exact List.suffix_refl _

theorem Chain.read_suffix (ts : List Token) : (Chain.read ts).2 <:+ ts := by
  cases ts with
  | nil => exact List.suffix_refl _
  | cons t ts =>
    simp only [Chain.read]
    split
    · exact (Chain.readTerms_suffix ts).trans (List.suffix_cons t ts)
    · exact List.suffix_cons t ts

/-- The operands of a chain, in order. -/
def Chain.operands (c : Chain) : List Operand := c.first :: c.rest.map Prod.snd

/-- Every term of a chain is an operator with its neighbours. -/
theorem Chain.exists_of_mem_readTerms {ts : List Token} {op : Operator} {o : Operand}
    (h : (op, o) ∈ (Chain.readTerms ts).1) (before : Token) :
    ∃ a t b, [a, t, b] <:+: before :: ts ∧ t.kind = .operator ∧ Operator.ofLexeme? t.lexeme = some op ∧
      b.kind.isOperand = true ∧ b.operand = o := by
  fun_induction Chain.readTerms ts generalizing before with
  | case1 t rhs ts hop hrhs terms after heq ih =>
    rw [heq] at ih
    rcases List.mem_append.mp h with h | h
    · obtain ⟨op', hop', he⟩ := List.mem_map.mp h
      cases he
      exact ⟨before, t, rhs, ⟨[], ts, rfl⟩, hop, Option.mem_toList.mp hop', hrhs, rfl⟩
    · obtain ⟨a, u, b, hin, hrest⟩ := ih h rhs
      exact ⟨a, u, b, hin.trans ((List.suffix_cons t _).trans (List.suffix_cons before _)).isInfix, hrest⟩
  | _ => simp at h

theorem Chain.exists_of_mem_operands {ts : List Token} {c : Chain} {o : Operand} (h : (Chain.read ts).1 = some c)
    (ho : o ∈ c.operands) : ∃ t ∈ ts, t.kind.isOperand = true ∧ t.operand = o := by
  cases ts with
  | nil => simp [Chain.read] at h
  | cons t ts =>
    simp only [Chain.read] at h
    split_ifs at h with ht
    cases h
    rcases List.mem_cons.mp ho with rfl | ho
    · exact ⟨t, List.mem_cons_self, ht, rfl⟩
    · obtain ⟨⟨op, o'⟩, hmem, rfl⟩ := List.mem_map.mp ho
      obtain ⟨a, u, b, hin, -, -, hb, hbo⟩ := Chain.exists_of_mem_readTerms hmem t
      exact ⟨b, hin.subset (by simp), hb, hbo⟩

namespace Read

/-- What an action returns and leaves. -/
def exec {α : Type} (m : Read α) (r : Reader) : α × Reader := m.run r

section Equations

variable {α β : Type} (r : Reader)

@[simp] theorem exec_pure (a : α) : exec (pure a) r = (a, r) := rfl

@[simp] theorem exec_bind (m : Read α) (f : α → Read β) :
    exec (m >>= f) r = exec (f (exec m r).1) (exec m r).2 := rfl

@[simp] theorem exec_map (m : Read α) (f : α → β) : exec (f <$> m) r = (f (exec m r).1, (exec m r).2) := rfl

@[simp] theorem exec_ite (c : Prop) [Decidable c] (a b : Read α) :
    exec (if c then a else b) r = if c then exec a r else exec b r := by
  split <;> rfl

@[simp] theorem exec_get : exec (get : Read Reader) r = (r, r) := rfl

@[simp] theorem exec_current : exec current r = (r.rest.head?, r) := rfl

@[simp] theorem exec_advance : exec advance r = ((), { r with rest := r.rest.tail }) := rfl

@[simp] theorem exec_complain (cause : Cause) (line : Option Nat) :
    exec (complain cause line) r = ((), { r with diagnostics := r.diagnostics ++ [⟨cause, line⟩] }) := rfl

@[simp] theorem exec_startsWith (kind : TokenKind) :
    exec (startsWith kind) r = (r.rest.head?.any fun t => t.kind = kind, r) := rfl

@[simp] theorem exec_startsWithKeyword (k : Keyword) :
    exec (startsWithKeyword k) r = (r.rest.head?.any fun t => t.keyword? = some k, r) := rfl

@[simp] theorem exec_chain : exec chain r = ((Chain.read r.rest).1, { r with rest := (Chain.read r.rest).2 }) := rfl

@[simp] theorem exec_untilParen :
    exec untilParen r = (r.rest.takeWhile Token.isInside, { r with rest := r.rest.dropWhile Token.isInside }) :=
  rfl

@[simp] theorem exec_openBlock :
    exec openBlock r = ((), { r with opened := (r.rest.head?.map Token.line).toList ++ r.opened }) := rfl

theorem exec_closeBlock_cons (t : Token) (ts : List Token) (opened : List Nat) (ds : List Diagnostic) :
    exec closeBlock ⟨t :: ts, opened, ds⟩ = ((), ⟨ts, opened.tail, ds⟩) := rfl

theorem exec_expect_cons (wanted : TokenKind) (t : Token) (ts : List Token) (opened : List Nat)
    (ds : List Diagnostic) :
    exec (expect wanted) ⟨t :: ts, opened, ds⟩ =
      if t.kind = wanted then (some t, ⟨ts, opened, ds⟩)
      else (none, ⟨ts, opened, ds ++ [⟨.expected wanted t.kind, some t.line⟩]⟩) := by
  simp [expect]

theorem exec_expect_rest (wanted : TokenKind) : (exec (expect wanted) r).2.rest = r.rest.tail := by
  obtain ⟨rest, opened, ds⟩ := r
  cases rest with
  | nil => rfl
  | cons t ts => rw [exec_expect_cons]; split <;> rfl

theorem exec_expect_fst (wanted : TokenKind) :
    (exec (expect wanted) r).1 = r.rest.head?.filter fun t => t.kind = wanted := by
  obtain ⟨rest, opened, ds⟩ := r
  cases rest with
  | nil => rfl
  | cons t ts => rw [exec_expect_cons]; split <;> simp_all [Option.filter]

theorem exec_closeBlock_rest : (exec closeBlock r).2.rest = r.rest.tail := by
  obtain ⟨rest, opened, ds⟩ := r
  cases rest with
  | cons t ts => rfl
  | nil => cases opened <;> rfl

end Equations

/-! ## What actions give -/

/-- Run on what is left of a token list, the action returns something that `Q` holds of, and leaves less. -/
def Gives {α : Type} (tokens : List Token) (m : Read α) (Q : α → Prop) : Prop :=
  ∀ r : Reader, r.rest <:+ tokens → Q (exec m r).1 ∧ (exec m r).2.rest <:+ tokens

namespace Gives

variable {α β : Type} {tokens : List Token}

theorem pure {a : α} {Q : α → Prop} (h : Q a) : Gives tokens (Pure.pure a) Q := fun _ hr => ⟨h, hr⟩

theorem bind {m : Read α} {f : α → Read β} {P : α → Prop} {Q : β → Prop} (hm : Gives tokens m P)
    (hf : ∀ a, P a → Gives tokens (f a) Q) : Gives tokens (m >>= f) Q := by
  intro r hr
  obtain ⟨hP, hrest⟩ := hm r hr
  exact hf _ hP _ hrest

theorem map {m : Read α} {f : α → β} {Q : β → Prop} (hm : Gives tokens m fun a => Q (f a)) :
    Gives tokens (f <$> m) Q := fun r hr => hm r hr

theorem weaken {m : Read α} {P Q : α → Prop} (hm : Gives tokens m P) (h : ∀ a, P a → Q a) : Gives tokens m Q :=
  fun r hr => ⟨h _ (hm r hr).1, (hm r hr).2⟩

theorem ite {c : Prop} [Decidable c] {a b : Read α} {Q : α → Prop} (ha : c → Gives tokens a Q)
    (hb : ¬ c → Gives tokens b Q) : Gives tokens (if c then a else b) Q := by
  split
  · exact ha ‹_›
  · exact hb ‹_›

theorem get {Q : Reader → Prop} (h : ∀ r : Reader, r.rest <:+ tokens → Q r) : Gives tokens MonadState.get Q :=
  fun r hr => ⟨h r hr, hr⟩

theorem current : Gives tokens Read.current fun o => ∀ t, o = some t → t ∈ tokens := by
  refine fun r hr => ⟨fun t ht => ?_, hr⟩
  exact hr.subset (List.mem_of_head? ht)

theorem advance : Gives tokens Read.advance fun _ => True :=
  fun r hr => ⟨trivial, (List.tail_suffix r.rest).trans hr⟩

theorem complain (cause : Cause) (line : Option Nat) : Gives tokens (Read.complain cause line) fun _ => True :=
  fun _ hr => ⟨trivial, hr⟩

theorem startsWith (kind : TokenKind) : Gives tokens (Read.startsWith kind) fun _ => True :=
  fun _ hr => ⟨trivial, hr⟩

theorem startsWithKeyword (k : Keyword) : Gives tokens (Read.startsWithKeyword k) fun _ => True :=
  fun _ hr => ⟨trivial, hr⟩

theorem openBlock : Gives tokens Read.openBlock fun _ => True := fun _ hr => ⟨trivial, hr⟩

theorem closeBlock : Gives tokens Read.closeBlock fun _ => True := by
  refine fun r hr => ⟨trivial, ?_⟩
  rw [exec_closeBlock_rest]
  exact (List.tail_suffix r.rest).trans hr

theorem expect (wanted : TokenKind) :
    Gives tokens (Read.expect wanted) fun o => ∀ t, o = some t → t ∈ tokens ∧ t.kind = wanted := by
  refine fun r hr => ⟨fun t ht => ?_, ?_⟩
  · rw [exec_expect_fst, Option.filter_eq_some_iff] at ht
    exact ⟨hr.subset (List.mem_of_head? ht.1), by simpa using ht.2⟩
  · rw [exec_expect_rest]
    exact (List.tail_suffix r.rest).trans hr

theorem chain : Gives tokens Read.chain fun o => ∀ c, o = some c → ∃ ts, ts <:+ tokens ∧ (Chain.read ts).1 = some c :=
  fun r hr => ⟨fun _ hc => ⟨r.rest, hr, hc⟩, (Chain.read_suffix r.rest).trans hr⟩

theorem untilParen : Gives tokens Read.untilParen fun ts => ts <:+: tokens :=
  fun _ hr => ⟨(List.takeWhile_prefix _).isInfix.trans hr.isInfix, (List.dropWhile_suffix _).trans hr⟩

end Gives

end Read

end Dotlang
