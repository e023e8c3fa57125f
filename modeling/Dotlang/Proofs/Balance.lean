import Dotlang.Proofs.Braces
import Dotlang.Proofs.Ledgers
import Dotlang.Proofs.RoundTrip
import Dotlang.Token.Lexer

/-!
# Programs without a complaint

Blocks take the braces that they begin and end with. A brace is also taken where a chain is expected, and wherever
everything up to a closing parenthesis is taken; such a brace is not missed.

* `bracesApart`, `valuesApart` : no brace stands in parentheses or behind an assignment sign;
* `Read.Keeps K m ok K'` : without a complaint, `m` closes the blocks that it opens and no others;
* `balanced_of_clean` : so braces are balanced if there is no complaint and no brace stands where it is not missed.
-/

namespace Dotlang

/-! ## Where braces are missed -/

/-- No brace stands between an opening parenthesis and the next closing one, given whether one is open. -/
def bracesApart : Bool → List Token → Bool
  | _, [] => true
  | inside, t :: ts =>
    !(inside && t.isBrace) && bracesApart (t.kind = .lparen || inside && t.kind ≠ .rparen) ts

/-- Neither a brace nor a closing parenthesis stands directly behind an assignment sign. -/
def valuesApart : List Token → Bool
  | eq :: t :: ts => (eq.kind ≠ .assign || !t.isBrace && t.kind ≠ .rparen) && valuesApart (t :: ts)
  | _ => true

/-- At most `n` tokens, and every brace among them is one that would be missed. -/
structure Visible (n : Nat) (inside : Bool) (ts : List Token) : Prop where
  apart : bracesApart inside ts = true
  values : valuesApart ts = true
  length : ts.length ≤ n

theorem bracesApart_weaken {ts : List Token} (h : bracesApart true ts = true) : bracesApart false ts = true := by
  induction ts with
  | nil => rfl
  | cons t ts ih =>
    have hbehind := (Bool.and_eq_true_iff.mp h).2
    rw [bracesApart, Bool.false_and, Bool.not_false, Bool.true_and]
    by_cases hl : t.kind = .lparen
    · simpa [hl] using hbehind
    · by_cases hr : t.kind = .rparen
      · simpa [hr] using hbehind
      · simpa [hl] using ih (by simpa [hl, hr] using hbehind)

namespace Visible

variable {n : Nat} {inside : Bool} {t : Token} {ts : List Token}

theorem nil : Visible n inside [] := ⟨rfl, rfl, Nat.zero_le n⟩

theorem mono {m : Nat} (h : Visible n inside ts) (hnm : n ≤ m) : Visible m inside ts :=
  ⟨h.apart, h.values, Nat.le_trans h.length hnm⟩

theorem outside (h : Visible n true ts) : Visible n false ts := ⟨bracesApart_weaken h.apart, h.values, h.length⟩

theorem valuesApart_tail (h : valuesApart (t :: ts) = true) : valuesApart ts = true := by
  cases ts with
  | nil => rfl
  | cons u us => exact (Bool.and_eq_true_iff.mp h).2

theorem paren (h : Visible (n + 1) inside (t :: ts)) (ht : t.kind = .lparen) : Visible n true ts := by
  have happart := (Bool.and_eq_true_iff.mp h.apart).2
  refine ⟨?_, valuesApart_tail h.values, Nat.le_of_succ_le_succ h.length⟩
  simpa [ht] using happart

theorem tail (h : Visible (n + 1) inside (t :: ts)) (ht : inside = true → t.kind ≠ .rparen) : Visible n inside ts := by
  have happart := (Bool.and_eq_true_iff.mp h.apart).2
  refine ⟨?_, valuesApart_tail h.values, Nat.le_of_succ_le_succ h.length⟩
  cases inside with
  | true => simpa [ht rfl] using happart
  | false =>
    by_cases hl : t.kind = .lparen
    · exact bracesApart_weaken (by simpa [hl] using happart)
    · simpa [hl] using happart

theorem head (h : Visible n true (t :: ts)) : t.isBrace = false := by
  simpa using (Bool.and_eq_true_iff.mp h.apart).1

/-- What stands behind an assignment sign. -/
theorem value {eq : Token} (h : Visible n inside (eq :: t :: ts)) (heq : eq.kind = .assign) :
    t.isBrace = false ∧ t.kind ≠ .rparen := by
  simpa [heq] using (Bool.and_eq_true_iff.mp h.values).1

/-- Tokens up to the next closing parenthesis. -/
theorem untilParen (h : Visible n true ts) :
    (∀ u ∈ ts.takeWhile Token.isInside, u.isBrace = false) ∧ Visible n false (ts.dropWhile Token.isInside) := by
  induction ts with
  | nil => exact ⟨List.forall_mem_nil _, .nil⟩
  | cons t ts ih =>
    by_cases ht : t.isInside = true
    · have hts : Visible n true ts :=
        (tail (h.mono (Nat.le_succ n)) fun _ => by simpa [Token.isInside] using ht)
      rw [List.takeWhile_cons_of_pos ht, List.dropWhile_cons_of_pos ht]
      exact ⟨List.forall_mem_cons.mpr ⟨h.head, (ih hts).1⟩, (ih hts).2⟩
    · rw [List.takeWhile_cons_of_neg ht, List.dropWhile_cons_of_neg ht]
      exact ⟨List.forall_mem_nil _, h.outside⟩

end Visible

/-! ## Chains -/

/-- The terms of a chain are no braces and no parentheses. -/
theorem exists_readTerms (ts : List Token) :
    ∃ used, ts = used ++ (Chain.readTerms ts).2 ∧ ∀ t ∈ used, t.kind.isOperand = true ∨ t.kind = .operator := by
  fun_induction Chain.readTerms ts with
  | case1 op rhs ts hop hrhs terms after heq ih =>
    rw [heq] at ih
    obtain ⟨used, hts, hused⟩ := ih
    refine ⟨op :: rhs :: used, by rw [hts]; rfl, ?_⟩
    exact List.forall_mem_cons.mpr ⟨Or.inr hop, List.forall_mem_cons.mpr ⟨Or.inl hrhs, hused⟩⟩
  | case2 op rhs ts hop => exact ⟨[op], rfl, List.forall_mem_singleton.mpr (Or.inr hop)⟩
  | case3 op rhs ts => exact ⟨[], rfl, List.forall_mem_nil _⟩
  | case4 op =>
    split
    · exact ⟨[op], rfl, List.forall_mem_singleton.mpr (Or.inr ‹_›)⟩
    · exact ⟨[], rfl, List.forall_mem_nil _⟩
  | case5 => exact ⟨[], rfl, List.forall_mem_nil _⟩

/-- The first token of a chain is what it has to be, or there is no chain. -/
theorem exists_read (ts : List Token) :
    ∃ used, ts = used ++ (Chain.read ts).2 ∧ ∀ t ∈ used, t.kind.isOperand = true ∨ t.kind = .operator ∨
      (Chain.read ts).1 = none ∧ t ∈ ts.head? := by
  cases ts with
  | nil => exact ⟨[], rfl, nofun⟩
  | cons t ts =>
    by_cases ht : t.kind.isOperand = true
    · obtain ⟨used, hts, hused⟩ := exists_readTerms ts
      rw [Chain.read, if_pos ht]
      refine ⟨t :: used, by rw [List.cons_append, ← hts], List.forall_mem_cons.mpr ⟨Or.inl ht, fun u hu => ?_⟩⟩
      exact (hused u hu).imp_right Or.inl
    · rw [Chain.read, if_neg ht]
      exact ⟨[t], rfl, List.forall_mem_singleton.mpr (Or.inr (Or.inr ⟨rfl, rfl⟩))⟩

/-- A chain takes no brace, if none stands first where there is no chain. -/
theorem Visible.read {n : Nat} {inside : Bool} {ts : List Token} (h : Visible n inside ts)
    (hhead : (Chain.read ts).1 = none → ∀ t ∈ ts.head?, t.isBrace = false ∧ (inside = true → t.kind ≠ .rparen)) :
    Visible n inside (Chain.read ts).2 ∧ ∃ used, ts = used ++ (Chain.read ts).2 ∧ Balanced used := by
  obtain ⟨used, hts, hused⟩ := exists_read ts
  have hflat : ∀ t ∈ used, t.isBrace = false ∧ (inside = true → t.kind ≠ .rparen) := by
    intro t ht
    rcases hused t ht with hkind | hkind | ⟨hnone, hfirst⟩
    · refine ⟨Token.isBrace_eq_false.mpr ⟨?_, ?_⟩, fun _ => ?_⟩ <;>
      · intro heq
        rw [heq] at hkind
        cases hkind
    · exact ⟨Token.isBrace_of_kind hkind (by decide) (by decide), fun _ => by rw [hkind]; decide⟩
    · exact hhead hnone t hfirst
  refine ⟨?_, used, hts, .of_forall fun t ht => (hflat t ht).1⟩
  rw [hts] at h
  generalize (Chain.read ts).2 = rest at h
  clear hts hused hhead
  induction used with
  | nil => exact h
  | cons t used ih =>
    obtain ⟨ht, hrest⟩ := List.forall_mem_cons.mp hflat
    exact ih hrest (tail (h.mono (Nat.le_succ n)) ht.2)

/-! ## Actions that close what they open -/

/-- The counting loop has a condition. -/
def Statement.isConditioned : Statement → Bool
  | .counting _ _ cond _ _ => cond.isSome
  | _ => true

/-- Every counting loop of a body has a condition. -/
def Conditioned (body : List Statement) : Prop := ∀ s ∈ bodyNodes body, s.isConditioned = true

def Alternatives.Conditioned (a : Alternatives) : Prop := ∀ s ∈ a.nodes, s.isConditioned = true

theorem conditioned_append {ss ts : List Statement} : Conditioned (ss ++ ts) ↔ Conditioned ss ∧ Conditioned ts := by
  rw [Conditioned, bodyNodes_append, List.forall_mem_append]
  rfl

theorem conditioned_singleton {s : Statement} {inside : List Statement} (h : s.nodes = s :: inside) :
    Conditioned [s] ↔ s.isConditioned = true ∧ ∀ x ∈ inside, x.isConditioned = true := by
  rw [Conditioned, bodyNodes, bodyNodes, List.append_nil, h, List.forall_mem_cons]

namespace Read

variable {α β : Type}

/-- On token lists that `K` holds of, and unless the action complains or what it returns is not `ok`, the blocks that
are open stay the same, the braces among the tokens that it takes are balanced, and `L` holds of what is left.
Complaints stay. -/
structure Keeps (K : List Token → Prop) (m : Read α) (ok : α → Prop) (L : List Token → Prop) : Prop where
  clean : ∀ r, (exec m r).2.diagnostics = [] → r.diagnostics = []
  closes : ∀ r, K r.rest → (exec m r).2.diagnostics = [] → ok (exec m r).1 → (exec m r).2.opened = r.opened ∧
    L (exec m r).2.rest ∧ ∃ used, r.rest = used ++ (exec m r).2.rest ∧ Balanced used

/-- Whatever is returned. -/
def Any (_ : α) : Prop := True

namespace Keeps

variable {K L M : List Token → Prop} {m : Read α} {ok : β → Prop} {n : Nat} {inside : Bool}

theorem pure {b : β} (h : ∀ ts, K ts → L ts) : Keeps K (Pure.pure b) ok L :=
  ⟨fun _ => id, fun _ hr _ _ => ⟨rfl, h _ hr, [], rfl, .nil⟩⟩

theorem bind {f : α → Read β} {good : α → Prop} (hm : Keeps K m good L) (hf : ∀ a, Keeps L (f a) ok M)
    (hgood : ∀ a r, ok (exec (f a) r).1 → good a) : Keeps K (m >>= f) ok M := by
  refine ⟨fun r h => hm.clean r ((hf _).clean _ h), fun r hr h hok => ?_⟩
  have hmid := (hf _).clean _ h
  obtain ⟨hopened, hL, used, hused, hbalanced⟩ := hm.closes r hr hmid (hgood _ _ hok)
  obtain ⟨hopened', hM, used', hused', hbalanced'⟩ := (hf _).closes _ hL h hok
  refine ⟨hopened'.trans hopened, hM, used ++ used', ?_, hbalanced.append hbalanced'⟩
  rw [hused, hused', List.append_assoc]
  rfl

/-- The result need not be looked at. -/
theorem any {good : α → Prop} (hm : Keeps K m Any L) : Keeps K m good L :=
  ⟨hm.clean, fun r hr h _ => hm.closes r hr h trivial⟩

/-- An action behind one whose result does not matter. -/
theorem seq {f : α → Read β} (hm : Keeps K m Any L) (hf : ∀ a, Keeps L (f a) ok M) : Keeps K (m >>= f) ok M :=
  hm.bind hf fun _ _ _ => trivial

theorem map {f : α → β} (hm : Keeps K m (fun a => ok (f a)) L) : Keeps K (f <$> m) ok L :=
  ⟨fun r h => hm.clean r h, fun r hr h hok => hm.closes r hr h hok⟩

theorem weaken {K' L' : List Token → Prop} {m : Read β} (hm : Keeps K m ok L) (hK : ∀ ts, K' ts → K ts)
    (hL : ∀ ts, L ts → L' ts) : Keeps K' m ok L' := by
  refine ⟨hm.clean, fun r hr h hok => ?_⟩
  obtain ⟨hopened, hrest, hused⟩ := hm.closes r (hK _ hr) h hok
  exact ⟨hopened, hL _ hrest, hused⟩

/-- An action that depends on the next token. -/
theorem current_bind {f : Option Token → Read β} (hf : ∀ o, Keeps (fun ts => K ts ∧ ts.head? = o) (f o) ok L) :
    Keeps K (Read.current >>= f) ok L :=
  ⟨fun r h => (hf _).clean r h, fun r hr h hok => (hf _).closes r ⟨hr, rfl⟩ h hok⟩

theorem startsWith_bind {kind : TokenKind} {f : Bool → Read β}
    (hf : ∀ b, Keeps (fun ts => K ts ∧ (ts.head?.any fun t => t.kind = kind) = b) (f b) ok L) :
    Keeps K (Read.startsWith kind >>= f) ok L :=
  ⟨fun r h => (hf _).clean r h, fun r hr h hok => (hf _).closes r ⟨hr, rfl⟩ h hok⟩

theorem startsWithKeyword_bind {k : Keyword} {f : Bool → Read β}
    (hf : ∀ b, Keeps (fun ts => K ts ∧ (ts.head?.any fun t => t.keyword? = some k) = b) (f b) ok L) :
    Keeps K (Read.startsWithKeyword k >>= f) ok L :=
  ⟨fun r h => (hf _).clean r h, fun r hr h hok => (hf _).closes r ⟨hr, rfl⟩ h hok⟩

theorem get_bind {f : Reader → Read β} (hf : ∀ r, Keeps K (f r) ok L) : Keeps K (MonadState.get >>= f) ok L :=
  ⟨fun r h => (hf _).clean r h, fun r hr h hok => (hf _).closes r hr h hok⟩

theorem complain {cause : Cause} {line : Option Nat} {good : Unit → Prop} :
    Keeps K (Read.complain cause line) good L := by
  have hne : ∀ r, (exec (Read.complain cause line) r).2.diagnostics ≠ [] :=
    fun r => List.append_ne_nil_of_right_ne_nil _ (List.cons_ne_nil _ _)
  exact ⟨fun r h => absurd h (hne r), fun r _ h => absurd h (hne r)⟩

/-- One token is taken, if there is one. -/
theorem advance {good : Unit → Prop} (hnil : K [] → L []) (hcons : ∀ t ts, K (t :: ts) → t.isBrace = false ∧ L ts) :
    Keeps K Read.advance good L := by
  refine ⟨fun _ => id, fun r hr _ _ => ?_⟩
  obtain ⟨rest, opened, ds⟩ := r
  cases rest with
  | nil => exact ⟨rfl, hnil hr, [], rfl, .nil⟩
  | cons t ts =>
    obtain ⟨ht, hts⟩ := hcons t ts hr
    exact ⟨rfl, hts, [t], rfl, .other ht .nil⟩

theorem expect {kind : TokenKind} {good : Option Token → Prop} (hl : kind ≠ .lcurly) (hr : kind ≠ .rcurly)
    (hnil : K [] → L []) (hcons : ∀ t ts, K (t :: ts) → t.kind = kind → L ts) :
    Keeps K (Read.expect kind) good L := by
  refine ⟨fun r h => (expect_of_clean h).1, fun r hrest h _ => ?_⟩
  have hkind := (expect_of_clean h).2.2
  obtain ⟨rest, opened, ds⟩ := r
  cases rest with
  | nil => exact ⟨rfl, hnil hrest, [], rfl, .nil⟩
  | cons t ts =>
    have ht := hkind t rfl
    rw [exec_expect_cons, if_pos ht]
    exact ⟨rfl, hcons t ts hrest ht, [t], rfl, .other (Token.isBrace_of_kind ht hl hr) .nil⟩

/-- A token that is no brace and, in parentheses, does not close them. -/
theorem expect_tail {kind : TokenKind} {good : Option Token → Prop}
    (hkind : kind ≠ .lcurly ∧ kind ≠ .rcurly ∧ (inside = true → kind ≠ .rparen)) :
    Keeps (Visible (n + 1) inside) (Read.expect kind) good (Visible n inside) :=
  expect hkind.1 hkind.2.1 (fun _ => .nil) fun _ _ h ht => h.tail fun hin => ht ▸ hkind.2.2 hin

/-- So it is with a bound that is not used up. -/
theorem expect_same {kind : TokenKind} {good : Option Token → Prop}
    (hkind : kind ≠ .lcurly ∧ kind ≠ .rcurly ∧ (inside = true → kind ≠ .rparen)) :
    Keeps (Visible n inside) (Read.expect kind) good (Visible n inside) :=
  (expect_tail hkind).weaken (fun _ h => h.mono (Nat.le_succ n)) fun _ h => h

theorem expect_lparen {good : Option Token → Prop} :
    Keeps (Visible n inside) (Read.expect .lparen) good (Visible n true) :=
  expect (by decide) (by decide) (fun _ => .nil) fun _ _ h ht => (h.mono (Nat.le_succ n)).paren ht

theorem untilParen {good : List Token → Prop} : Keeps (Visible n true) Read.untilParen good (Visible n false) := by
  refine ⟨fun _ => id, fun r hr _ _ => ?_⟩
  obtain ⟨hused, hrest⟩ := hr.untilParen
  exact ⟨rfl, hrest, _, List.takeWhile_append_dropWhile.symm, .of_forall hused⟩

/-- A chain in parentheses may be missing, and then the closing parenthesis may be taken for it. -/
theorem chain_inside {good : Option Chain → Prop} : Keeps (Visible n true) Read.chain good (Visible n false) := by
  refine ⟨fun _ => id, fun r hr _ _ => ?_⟩
  have hhead : ∀ t ∈ r.rest.head?, t.isBrace = false := by
    intro t ht
    obtain ⟨ts, hts⟩ := List.head?_eq_some_iff.mp ht
    rw [hts] at hr
    exact hr.head
  obtain ⟨hrest, hused⟩ := hr.outside.read fun _ t ht => ⟨hhead t ht, nofun⟩
  exact ⟨rfl, hrest, hused⟩

/-- A chain that is not missing. -/
theorem chain_some : Keeps (Visible n inside) Read.chain (fun c => c.isSome = true) (Visible n inside) := by
  refine ⟨fun _ => id, fun r hr _ hsome => ?_⟩
  obtain ⟨hrest, hused⟩ := hr.read fun hnone => by simp [exec_chain, hnone] at hsome
  exact ⟨rfl, hrest, hused⟩

/-- What may stand behind an assignment sign. -/
def Value (n : Nat) (inside : Bool) (ts : List Token) : Prop :=
  Visible n inside ts ∧ ∀ t ∈ ts.head?, t.isBrace = false ∧ t.kind ≠ .rparen

theorem chain_value {good : Option Chain → Prop} : Keeps (Value n inside) Read.chain good (Visible n inside) := by
  refine ⟨fun _ => id, fun r hr _ _ => ?_⟩
  obtain ⟨hrest, hused⟩ := hr.1.read fun _ t ht => ⟨(hr.2 t ht).1, fun _ => (hr.2 t ht).2⟩
  exact ⟨rfl, hrest, hused⟩

/-- The first token of a statement, which is no brace. -/
theorem advance_first {t : Token} {good : Unit → Prop} (ht : t.isBrace = false) :
    Keeps (fun ts => Visible (n + 1) false ts ∧ ts.head? = some t) Read.advance good (Visible n false) := by
  refine advance (fun _ => .nil) fun u ts h => ?_
  obtain rfl := Option.some.inj h.2
  exact ⟨ht, h.1.tail nofun⟩

theorem advance_value {good : Unit → Prop} :
    Keeps (fun ts => Visible n inside ts ∧ (ts.head?.any fun t => t.kind = .assign) = true) Read.advance good
      (Value n inside) := by
  refine advance (fun _ => ⟨.nil, nofun⟩) fun eq ts h => ?_
  have heq : eq.kind = .assign := by simpa using h.2
  refine ⟨Token.isBrace_of_kind heq (by decide) (by decide), ?_, ?_⟩
  · exact (h.1.mono (Nat.le_succ n)).tail fun _ => by rw [heq]; decide
  · intro t ht
    obtain ⟨us, rfl⟩ := List.head?_eq_some_iff.mp ht
    exact h.1.value heq

/-! ### Parts of statements -/

theorem declaration : Keeps (Visible (n + 1) inside) Read.declaration Any (Visible n inside) := by
  refine .current_bind fun _ => .seq (L := Visible n inside) ?_ fun _ => .current_bind fun next => ?_
  · exact (expect_tail ⟨by decide, by decide, fun _ => by decide⟩).weaken (fun _ h => h.1) fun _ h => h
  cases next with
  | none => exact .pure fun _ h => h.1
  | some name =>
    show Keeps _ (ite _ _ _) _ _
    split
    · rename_i hname
      refine .seq (L := Visible n inside) ?_ fun _ => .startsWith_bind fun assigned => ?_
      · refine advance (fun _ => .nil) fun t ts h => ?_
        obtain rfl := Option.some.inj h.2
        refine ⟨Token.isBrace_of_kind hname (by decide) (by decide), ?_⟩
        exact (h.1.mono (Nat.le_succ n)).tail fun _ => by rw [hname]; decide
      · have hend : ∀ d : Declaration, Keeps (Visible n inside) (do
            let _ ← Read.expect .semicolon
            return some d) Any (Visible n inside) :=
          fun d => (expect_same ⟨by decide, by decide, fun _ => by decide⟩).seq fun _ => .pure fun _ h => h
        cases assigned with
        | true => exact .seq advance_value fun _ => chain_value.seq fun _ => hend _
        | false => exact .seq (.pure fun _ h => h.1) fun _ => hend _
    · exact .pure fun _ h => h.1

theorem assignment (first : Token) : Keeps (Visible (n + 1) false) (Read.assignment first) Any (Visible n false) := by
  refine (expect_tail (by decide)).seq fun _ => ?_
  refine .seq (L := Value n false) (expect (by decide) (by decide) (fun _ => ⟨.nil, nofun⟩) fun eq ts h heq => ?_)
    fun _ => chain_value.seq fun _ => (expect_same (by decide)).seq fun _ => .pure fun _ h => h
  refine ⟨(h.mono (Nat.le_succ n)).tail nofun, fun t ht => ?_⟩
  obtain ⟨us, rfl⟩ := List.head?_eq_some_iff.mp ht
  exact h.value heq

/-- Anything in parentheses. -/
theorem parens {f : List Token → Read β} (hf : ∀ inside, Keeps (Visible n false) (f inside) ok L) :
    Keeps (Visible n false) (do
      let _ ← Read.expect .lparen
      let inside ← Read.untilParen
      let _ ← Read.expect .rparen
      f inside) ok L :=
  expect_lparen.seq fun _ => untilParen.seq fun _ => (expect_same (by decide)).seq fun _ => hf _

theorem call {t : Token} (builtin : Bool) (ht : t.isBrace = false) :
    Keeps (fun ts => Visible (n + 1) false ts ∧ ts.head? = some t) (Read.call t builtin) Any (Visible n false) :=
  (advance_first ht).seq fun _ => parens fun _ => (expect_same (by decide)).seq fun _ => .pure fun _ h => h

theorem condition : Keeps (Visible n false) Read.condition Any (Visible n false) :=
  expect_lparen.seq fun _ => chain_inside.seq fun _ =>
    (expect_same (by decide)).seq fun _ => .pure fun _ h => h

theorem leave {t : Token} (ht : t.isBrace = false) :
    Keeps (fun ts => Visible (n + 1) false ts ∧ ts.head? = some t) (Read.leave t) Any (Visible n false) :=
  (advance_first ht).seq fun _ => (expect_same (by decide)).seq fun _ => .pure fun _ h => h

theorem header : Keeps (Visible n false) Read.header Any (Visible n false) :=
  (expect_same (by decide)).seq fun _ => parens fun _ => .pure fun _ h => h

/-- If the condition is there, the parentheses are closed behind the step. -/
theorem loopHeader : Keeps (Visible n false) Read.loopHeader (fun h => h.2.1.isSome = true) (Visible n false) := by
  refine expect_lparen.seq fun _ => .seq (L := Visible n true) ?_ fun _ => ?_
  · exact declaration.weaken (fun _ h => h.mono (Nat.le_succ n)) fun _ h => h
  refine chain_some.bind (fun _ => ?_) fun cond r hcond => hcond
  refine (expect_same ⟨by decide, by decide, fun _ => by decide⟩).seq fun _ => untilParen.seq fun _ => ?_
  exact (expect_same (by decide)).seq fun _ => .pure fun _ h => h

theorem drop {t : Token} (ht : t.isBrace = false) {good : Option Statement → Prop} :
    Keeps (fun ts => Visible (n + 1) false ts ∧ ts.head? = some t) Read.drop good (Visible n false) :=
  (advance_first ht).seq fun _ => .pure fun _ h => h

/-- A reserved word on the way. -/
theorem advance_keyword {k : Keyword} {good : Unit → Prop} :
    Keeps (fun ts => Visible n false ts ∧ (ts.head?.any fun t => t.keyword? = some k) = true) Read.advance good
      (Visible n false) := by
  refine advance (fun _ => .nil) fun t ts h => ⟨?_, (h.1.mono (Nat.le_succ n)).tail nofun⟩
  have hword : t.keyword? = some k := by simpa using h.2
  exact Token.isBrace_of_kind (kind_of_keyword? hword) (by decide) (by decide)

end Keeps

section Compound

variable {n : Nat} {block : Read (List Statement)}
  (hblock : Keeps (Visible n false) block Conditioned (Visible n false))
include hblock

theorem alternatives_keeps (fuel : Nat) :
    Keeps (Visible n false) (alternatives block fuel) Alternatives.Conditioned (Visible n false) := by
  induction fuel with
  | zero => exact .pure fun _ h => h
  | succ fuel ih =>
    refine .startsWithKeyword_bind fun branch => ?_
    cases branch with
    | true =>
      refine Keeps.advance_keyword.seq fun _ => Keeps.condition.seq fun cond => ?_
      refine hblock.bind (fun body => ?_) fun body r hok => (List.forall_mem_append.mp hok).1
      exact ih.bind (fun rest => .pure fun _ h => h) fun rest r hok => (List.forall_mem_append.mp hok).2
    | false =>
      refine Keeps.weaken (L := Visible n false) (.startsWithKeyword_bind fun last => ?_) (fun _ h => h.1) fun _ h => h
      cases last with
      | true =>
        refine Keeps.advance_keyword.seq fun _ => ?_
        exact hblock.bind (fun body => .pure fun _ h => h) fun body r hok => hok
      | false => exact .pure fun _ h => h.1

variable {t : Token} (ht : t.isBrace = false)
include ht

theorem conditional_keeps :
    Keeps (fun ts => Visible (n + 1) false ts ∧ ts.head? = some t) (conditional block t) (fun s => Conditioned [s])
      (Visible n false) := by
  refine (Keeps.advance_first ht).seq fun _ => Keeps.condition.seq fun cond => ?_
  refine hblock.bind (fun body => .get_bind fun r => ?_) fun body r hok => ?_
  · refine (alternatives_keeps hblock _).bind (fun a => .pure fun _ h => h) fun a r hok => ?_
    exact (List.forall_mem_append.mp ((conditioned_singleton rfl).mp hok).2).2
  · exact (List.forall_mem_append.mp ((conditioned_singleton rfl).mp hok).2).1

theorem whileLoop_keeps :
    Keeps (fun ts => Visible (n + 1) false ts ∧ ts.head? = some t) (whileLoop block t) (fun s => Conditioned [s])
      (Visible n false) := by
  refine (Keeps.advance_first ht).seq fun _ => Keeps.condition.seq fun cond => ?_
  exact hblock.bind (fun body => .pure fun _ h => h) fun body r hok => ((conditioned_singleton rfl).mp hok).2

theorem doWhile_keeps :
    Keeps (fun ts => Visible (n + 1) false ts ∧ ts.head? = some t) (doWhile block t) (fun s => Conditioned [s])
      (Visible n false) := by
  refine (Keeps.advance_first ht).seq fun _ => hblock.bind (fun body => .startsWithKeyword_bind fun wish => ?_) ?_
  · cases wish with
    | true =>
      refine Keeps.advance_keyword.seq fun _ => Keeps.condition.seq fun cond => ?_
      exact (Keeps.expect_same (by decide)).seq fun _ => .pure fun _ h => h
    | false => exact .current_bind fun next => .seq (L := Visible n false) .complain fun _ => .pure fun _ h => h
  · intro body r hok
    have hinside : ∀ cond, Conditioned [.doWhile t.position body cond] → Conditioned body :=
      fun cond h => ((conditioned_singleton rfl).mp h).2
    by_cases hwish : (r.rest.head?.any fun t => t.keyword? = some .wish) = true
    · rw [exec_bind, exec_startsWithKeyword, if_pos hwish] at hok
      exact hinside _ hok
    · rw [exec_bind, exec_startsWithKeyword, if_neg hwish] at hok
      exact hinside _ hok

theorem counting_keeps :
    Keeps (fun ts => Visible (n + 1) false ts ∧ ts.head? = some t) (counting block t) (fun s => Conditioned [s])
      (Visible n false) := by
  rw [counting_eq]
  refine (Keeps.advance_first ht).seq fun _ => Keeps.loopHeader.bind (fun (init, cond, step) => ?_) ?_
  · exact hblock.bind (fun body => .pure fun _ h => h) fun body r hok => ((conditioned_singleton rfl).mp hok).2
  · exact fun (init, cond, step) r hok => ((conditioned_singleton rfl).mp hok).1

theorem function_keeps :
    Keeps (fun ts => Visible (n + 1) false ts ∧ ts.head? = some t) (function block t) (fun s => Conditioned [s])
      (Visible n false) := by
  rw [function_eq]
  refine (Keeps.advance_first ht).seq fun _ => Keeps.header.seq fun (name, params) => ?_
  exact hblock.bind (fun body => .pure fun _ h => h) fun body r hok => ((conditioned_singleton rfl).mp hok).2

end Compound

/-- Without a complaint, a block is closed by the brace that comes next, or the tokens have ended and none is open. -/
theorem closeBlock_of_clean {r : Reader} (h : (exec closeBlock r).2.diagnostics = []) (hend : AtEnd r.rest) :
    (r.rest = [] ∧ r.opened = [] ∧ (exec closeBlock r).2 = r) ∨
      ∃ t ts, t.kind = .rcurly ∧ r.rest = t :: ts ∧ (exec closeBlock r).2 = ⟨ts, r.opened.tail, r.diagnostics⟩ := by
  obtain ⟨rest, opened, ds⟩ := r
  cases rest with
  | cons t ts => exact Or.inr ⟨t, ts, hend t rfl, rfl, rfl⟩
  | nil =>
    cases opened with
    | nil => exact Or.inl ⟨rfl, rfl, rfl⟩
    | cons line outer => exact absurd h (List.append_ne_nil_of_right_ne_nil _ (List.cons_ne_nil _ _))

theorem exec_braced_nil (items : Read (List Statement)) (opened : List Nat) (ds : List Diagnostic) :
    exec (braced items) ⟨[], opened, ds⟩ =
      ((exec items ⟨[], opened, ds⟩).1, (exec closeBlock (exec items ⟨[], opened, ds⟩).2).2) := rfl

theorem exec_braced_cons {l : Token} (hl : l.kind = .lcurly) (items : Read (List Statement)) (ts : List Token)
    (opened : List Nat) (ds : List Diagnostic) :
    exec (braced items) ⟨l :: ts, opened, ds⟩ =
      ((exec items ⟨ts, l.line :: opened, ds⟩).1, (exec closeBlock (exec items ⟨ts, l.line :: opened, ds⟩).2).2) := by
  simp [braced, exec_expect_cons, hl]

theorem braced_keeps {n : Nat} {items : Read (List Statement)}
    (h : Keeps (Visible n false) items Conditioned fun ts => Visible n false ts ∧ AtEnd ts) :
    Keeps (Visible (n + 1) false) (braced items) Conditioned (Visible n false) := by
  have hclean : ∀ r, (exec (braced items) r).2.diagnostics = [] →
      (exec (expect .lcurly) (exec openBlock r).2).2.diagnostics = [] :=
    fun r hfinal => h.clean _ ((Skips.closeBlock _).2 hfinal)
  refine ⟨fun r hfinal => (Skips.openBlock r).2 ((Skips.expect .lcurly _).2 (hclean r hfinal)), ?_⟩
  rintro ⟨rest, opened, ds⟩ hr hfinal hok
  cases rest with
  | nil =>
    rw [exec_braced_nil] at hfinal hok ⊢
    obtain ⟨hopened, ⟨hvisible, hend⟩, used, hused, -⟩ :=
      h.closes ⟨[], opened, ds⟩ .nil ((Skips.closeBlock _).2 hfinal) hok
    obtain ⟨rfl, hrest⟩ := List.append_eq_nil_iff.mp hused.symm
    rcases closeBlock_of_clean hfinal hend with ⟨-, -, hstate⟩ | ⟨t, ts, -, hcons, -⟩
    · simp only [hstate]
      exact ⟨hopened, hvisible, [], hused, .nil⟩
    · rw [hrest] at hcons
      cases hcons
  | cons l ts =>
    have hl : l.kind = .lcurly := (expect_of_clean (hclean _ hfinal)).2.2 l rfl
    rw [exec_braced_cons hl] at hfinal hok ⊢
    obtain ⟨hopened, ⟨hrest, hend⟩, used, hused, hbalanced⟩ :=
      h.closes ⟨ts, l.line :: opened, ds⟩ (hr.tail nofun) ((Skips.closeBlock _).2 hfinal) hok
    rcases closeBlock_of_clean hfinal hend with ⟨-, hnone, -⟩ | ⟨r, us, hr, hcons, hstate⟩
    · -- the block is open
      rw [hopened] at hnone
      cases hnone
    · rw [hcons] at hused hrest
      simp only [hstate, hopened, List.tail_cons]
      refine ⟨trivial, (hrest.mono (Nat.le_succ n)).tail nofun, l :: (used ++ [r]), ?_, .block hl hbalanced hr .nil⟩
      simpa using hused

theorem block_keeps {n : Nat} {K : List Token → Prop} {block : Read (List Statement)} (pos : Position)
    (hblock : Keeps K block Conditioned (Visible n false)) :
    Keeps K (some <$> Statement.block pos <$> block) (fun o => Conditioned o.toList) (Visible n false) :=
  .map (.map ⟨hblock.clean, fun r hr h hok => hblock.closes r hr h ((conditioned_singleton rfl).mp hok).2⟩)

/-- The statement that the next token begins. -/
theorem statement_keeps {n : Nat} {block : Read (List Statement)} {t : Token}
    (hblock : Keeps (Visible (n + 1) false) block Conditioned (Visible n false)) (ht : t.kind ≠ .rcurly) :
    Keeps (fun ts => Visible (n + 1) false ts ∧ ts.head? = some t) (statement block t) (fun o => Conditioned o.toList)
      (Visible n false) := by
  have hinside : Keeps (Visible n false) block Conditioned (Visible n false) :=
    hblock.weaken (fun _ h => h.mono (Nat.le_succ n)) fun _ h => h
  have hlead : t.kind ≠ .lcurly → t.isBrace = false := fun hl => Token.isBrace_eq_false.mpr ⟨hl, ht⟩
  unfold statement
  split
  · exact (block_keeps _ hblock).weaken (fun _ h => h.1) fun _ h => h
  · exact .map (Keeps.declaration.any.weaken (fun _ h => h.1) fun _ h => h)
  · rename_i hkind
    have hname := hlead (by rw [hkind]; decide)
    refine .get_bind fun r => ?_
    split
    · exact .map ((Keeps.assignment t).any.weaken (fun _ h => h.1) fun _ h => h)
    · exact .map (Keeps.call false hname).any
    · exact .drop hname
  · rename_i hkind
    have hword := hlead (by rw [hkind]; decide)
    have hcall : Keeps (fun ts => Visible (n + 1) false ts ∧ ts.head? = some t) (some <$> call t true)
        (fun o => Conditioned o.toList) (Visible n false) := .map (Keeps.call true hword).any
    split
    · exact .map (conditional_keeps hinside hword)
    · exact (Keeps.advance_first hword).seq fun _ => block_keeps _ hinside
    · exact .map (Keeps.leave hword).any
    · exact .map (whileLoop_keeps hinside hword)
    · exact .map (doWhile_keeps hinside hword)
    · exact .map (counting_keeps hinside hword)
    · exact .map (function_keeps hinside hword)
    · exact hcall
    · exact hcall
    · exact hcall
    all_goals exact .drop hword
  · exact .drop (hlead ‹_›)

/-- Statements are read up to a closing brace or to the end. -/
theorem items_keeps (n : Nat) :
    Keeps (Visible n false) (items n) Conditioned fun ts => Visible n false ts ∧ AtEnd ts := by
  induction n with
  | zero =>
    refine .pure fun ts h => ⟨h, ?_⟩
    rw [List.length_eq_zero_iff.mp (Nat.le_zero.mp h.length)]
    exact atEnd_nil
  | succ n ih =>
    refine .current_bind fun next => ?_
    cases next with
    | none =>
      refine .pure fun ts h => ⟨h.1, ?_⟩
      rw [List.head?_eq_none_iff.mp h.2]
      exact atEnd_nil
    | some t =>
      show Keeps _ (ite _ _ _) _ _
      split
      · rename_i hclose
        refine .pure fun ts h => ⟨h.1, fun u hu => ?_⟩
        rw [h.2] at hu
        rwa [← Option.some.inj hu]
      · rename_i hopen
        refine (statement_keeps (braced_keeps ih) hopen).bind (fun s => ?_) fun s r hok => ?_
        · refine (ih.bind (fun more => .pure fun _ h => h) fun more r hok => (conditioned_append.mp hok).2).weaken
            (fun _ h => h) fun _ h => ⟨h.1.mono (Nat.le_succ n), h.2⟩
        · exact (conditioned_append.mp hok).1

/-- Without a complaint, a program is read to its end. -/
theorem program_keeps (n : Nat) : Keeps (Visible n false) (program n) Conditioned (· = []) := by
  induction n with
  | zero => exact .pure fun _ h => List.length_eq_zero_iff.mp (Nat.le_zero.mp h.length)
  | succ n ih =>
    refine (items_keeps (n + 1)).bind (fun body => .current_bind fun next => ?_) fun body r hok => ?_
    · cases next with
      | none => exact .pure fun _ h => List.head?_eq_none_iff.mp h.2
      | some t =>
        refine .seq (L := fun _ => False) .complain fun _ => ?_
        refine .seq (L := Visible n false) (.advance False.elim fun _ _ h => h.elim) fun _ => ?_
        exact ih.bind (fun more => .pure fun _ h => h) fun more r hok => (conditioned_append.mp hok).2
    · rw [exec_bind, exec_current] at hok
      cases hnext : r.rest.head? with
      | none =>
        rw [hnext] at hok
        exact hok
      | some t =>
        rw [hnext] at hok
        exact (conditioned_append.mp hok).1

end Read

/-- **If there is nothing wrong with its syntax, the braces of a program are balanced**, provided that none stands in
parentheses or behind an assignment sign and that every counting loop has a condition. -/
theorem balanced_of_clean {tokens : List Token} (hclean : (parse tokens).diagnostics = [])
    (hparens : bracesApart false tokens = true) (hvalues : valuesApart tokens = true)
    (hconds : ∀ s ∈ bodyNodes (parse tokens).body, s.isConditioned = true) :
    (∀ p, p <+: tokens → occurrences .rcurly p ≤ occurrences .lcurly p) ∧
      occurrences .rcurly tokens = occurrences .lcurly tokens := by
  have hvisible : Visible tokens.length false tokens := ⟨hparens, hvalues, Nat.le_refl _⟩
  obtain ⟨-, hrest, used, hused, hbalanced⟩ :=
    (Read.program_keeps tokens.length).closes ⟨tokens, [], []⟩ hvisible hclean hconds
  rw [hrest, List.append_nil] at hused
  subst hused
  exact ⟨fun p hp => hbalanced.count_le hp, hbalanced.count_eq⟩

/-- A function, loops of all kinds and a conditional. -/
def everyBlock : String :=
  "Ex f(nmb a) \x7b oye (a >. 1) \x7b \x7d naioye \x7b f(1); \x7d \x7d " ++
    "first (nmb i =. 0; i <. 3; i +. 1) \x7b last \x7b \x7b brk; \x7d \x7d wish (i); wish (i) \x7b \x7d \x7d"

theorem balanced_of_clean_everyBlock :
    (parse (tokenize everyBlock)).diagnostics = [] ∧
      (∀ p, p <+: tokenize everyBlock → occurrences .rcurly p ≤ occurrences .lcurly p) ∧
      occurrences .rcurly (tokenize everyBlock) = occurrences .lcurly (tokenize everyBlock) ∧
      occurrences .lcurly (tokenize everyBlock) = 7 := by
  obtain ⟨hclean, hparens, hvalues, hconds, hopening⟩ : (parse (tokenize everyBlock)).diagnostics = [] ∧
      bracesApart false (tokenize everyBlock) = true ∧ valuesApart (tokenize everyBlock) = true ∧
      (bodyNodes (parse (tokenize everyBlock)).body).all Statement.isConditioned = true ∧
      occurrences .lcurly (tokenize everyBlock) = 7 := by decide +kernel
  obtain ⟨hclosed, htotal⟩ := balanced_of_clean hclean hparens hvalues (List.all_eq_true.mp hconds)
  exact ⟨hclean, hclosed, htotal, hopening⟩

/-- **A brace in the parentheses of a call opens no block.** It is not missed either: the argument is missing. -/
theorem braceInCall_is_not_missed :
    (parse (tokenize "printO(\x7b);")).diagnostics = [] ∧
      (tokenize "printO(\x7b);").map Token.kind = [.keyword, .lparen, .lcurly, .rparen, .semicolon] ∧
      occurrences .rcurly (tokenize "printO(\x7b);") ≠ occurrences .lcurly (tokenize "printO(\x7b);") := by
  decide +kernel

end Dotlang
