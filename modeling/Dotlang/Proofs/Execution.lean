import Dotlang.Machine.Run
import Mathlib

/-!
# Executions

* `Scene` : a state with the replies that are left and the events so far;
* `Program.Goes p n a b` : `n` steps lead from `a` to `b`;
* `Program.Reachable p s` : `s` occurs in a run of `p`, whatever is replied;
* `rest_of_goes` : a run can be cut after any number of its steps;
* `fault_of_run` : where the fault of a run comes from;
* `fault_of_step` : where the fault of a step comes from, in a program given as text.
-/

namespace Dotlang

/-! ## Arithmetic -/

namespace Value

theorem eq_str_of_number {op : Arith} {a : Value} {f : Fault} (h : a.number op = .error f) :
    ∃ s, a = .str s ∧ f = .nonNumeric op s := by
  cases a with
  | str s => exact ⟨s, rfl, by simpa [number] using h.symm⟩
  | _ => simp [number] at h

theorem fault_of_applyNumber {op : Arith} {a b : Number} {f : Fault} (h : applyNumber op a b = .error f) :
    f = .divisionByZero ∨ f = .moduloByZero := by
  have hint : ∀ m n : Int64, applyInt op m n = .error f → f = .divisionByZero ∨ f = .moduloByZero := by
    intro m n h
    cases op <;> simp only [applyInt, reduceCtorEq] at h
    all_goals
      split_ifs at h
      cases h
      simp
  have hfloat : ∀ x y : Float, applyFloat op x y = .error f → f = .divisionByZero ∨ f = .moduloByZero := by
    intro x y h
    cases op <;> simp only [applyFloat, reduceCtorEq] at h
    all_goals
      split_ifs at h
      cases h
      simp
  cases a with
  | int m =>
    cases b with
    | int n => exact hint m n h
    | float y => exact hfloat _ _ h
  | float x => exact hfloat _ _ h

/-- Arithmetic faults on a zero divisor, or on a text. -/
theorem fault_of_apply {op : Arith} {a b : Value} {f : Fault} (h : a.apply op b = .error f) :
    f = .divisionByZero ∨ f = .moduloByZero ∨ ∃ s, f = .nonNumeric op s ∧ (a = .str s ∨ b = .str s) := by
  unfold apply at h
  split_ifs at h
  cases ha : a.number op with
  | error g =>
    obtain ⟨s, rfl, rfl⟩ := eq_str_of_number ha
    rw [ha] at h
    cases h
    exact Or.inr (Or.inr ⟨s, rfl, Or.inl rfl⟩)
  | ok m =>
    cases hb : b.number op with
    | error g =>
      obtain ⟨s, rfl, rfl⟩ := eq_str_of_number hb
      rw [ha, hb] at h
      cases h
      exact Or.inr (Or.inr ⟨s, rfl, Or.inr rfl⟩)
    | ok n =>
      rw [ha, hb] at h
      exact (fault_of_applyNumber h).imp_right Or.inl

theorem isText_of_applyNumber {op : Arith} {a b : Number} {v : Value} (h : applyNumber op a b = .ok v) :
    v.isText = false := by
  have hint : ∀ m n : Int64, applyInt op m n = .ok v → v.isText = false := by
    intro m n h
    cases op <;> simp only [applyInt] at h
    all_goals
      first
        | cases h; rfl
        | split_ifs at h; cases h; rfl
  have hfloat : ∀ x y : Float, applyFloat op x y = .ok v → v.isText = false := by
    intro x y h
    have hwhole : ∀ q, (ofWhole q).isText = false := fun q => by unfold ofWhole; split <;> rfl
    cases op <;> simp only [applyFloat] at h
    all_goals
      first
        | cases h; rfl
        | split_ifs at h; cases h; first | rfl | exact hwhole _
  cases a with
  | int m =>
    cases b with
    | int n => exact hint m n h
    | float y => exact hfloat _ _ h
  | float x => exact hfloat _ _ h

/-- Of values that are no texts the result is none. -/
theorem isText_of_apply {op : Arith} {a b v : Value} (ha : a.isText = false) (hb : b.isText = false)
    (h : a.apply op b = .ok v) : v.isText = false := by
  unfold apply at h
  rw [if_neg (by simp [ha, hb])] at h
  cases hm : a.number op with
  | error g => rw [hm] at h; cases h
  | ok m =>
    cases hn : b.number op with
    | error g => rw [hm, hn] at h; cases h
    | ok n =>
      rw [hm, hn] at h
      exact isText_of_applyNumber h

end Value

namespace Machine

open Assembly (Line)

structure Scene where
  state : State
  replies : List (Option String)
  /-- The latest comes first. -/
  seen : List Event

/-- Before a run. -/
def Scene.start (replies : List (Option String)) : Scene := ⟨.initial, replies, []⟩

namespace Program

variable {p : Program}

/-- The scene after one step, unless the program ends here. -/
def after? (p : Program) (a : Scene) : Option Scene :=
  match p.step a.state with
  | .next s => some { a with state := s }
  | .print line s => some { a with state := s, seen := .print line :: a.seen }
  | .prompt message resume => some ⟨resume (a.replies.head?.getD none), a.replies.tail, .prompt message :: a.seen⟩
  | .halt | .fault _ => none

/-- A property of every state that a step can lead to. -/
def Leads (I : State → Prop) : Step → Prop
  | .next s | .print _ s => I s
  | .prompt _ resume => ∀ reply, I (resume reply)
  | .halt | .fault _ => True

theorem Leads.imp {I J : State → Prop} (hIJ : ∀ s, I s → J s) {step : Step} (h : Leads I step) : Leads J step := by
  cases step with
  | next s | print line s => exact hIJ s h
  | prompt message resume => exact fun reply => hIJ _ (h reply)
  | halt | fault f => trivial

theorem Leads.of_after? {I : State → Prop} {a b : Scene} (h : Leads I (p.step a.state)) (hab : p.after? a = some b) :
    I b.state := by
  unfold after? at hab
  cases hs : p.step a.state <;> simp only [hs, Option.some.injEq, reduceCtorEq] at hab h <;> subst hab
  · exact h
  · exact h
  · exact h _

inductive Goes (p : Program) : Nat → Scene → Scene → Prop where
  | refl (a : Scene) : Goes p 0 a a
  | step {n : Nat} {a b c : Scene} : p.after? a = some b → Goes p n b c → Goes p (n + 1) a c

/-- A state that some run arrives at. -/
def Reachable (p : Program) (s : State) : Prop :=
  ∃ n replies a, Goes p n (.start replies) a ∧ a.state = s

namespace Goes

variable {a b c : Scene} {m n : Nat}

theorem one (h : p.after? a = some b) : Goes p 1 a b := .step h (.refl b)

theorem trans (h : Goes p m a b) (h' : Goes p n b c) : Goes p (m + n) a c := by
  induction h with
  | refl a => rwa [Nat.zero_add]
  | step hstep _ ih =>
    rw [Nat.add_right_comm]
    exact .step hstep (ih h')

/-- Of a run that takes a step, the last step. -/
theorem last (h : Goes p (n + 1) a c) : ∃ b, Goes p n a b ∧ p.after? b = some c := by
  induction n generalizing a with
  | zero =>
    cases h with
    | step hab hbc =>
      cases hbc
      exact ⟨a, .refl a, hab⟩
  | succ n ih =>
    cases h with
    | step hab hbc =>
      obtain ⟨b, hgoes, hlast⟩ := ih hbc
      exact ⟨b, .step hab hgoes, hlast⟩

/-- A comparison fills the register. -/
theorem compare {left right : String} (h : p.lines[a.state.pc]? = some (.ok (.compare left right))) :
    Goes p 1 a { a with state := { a.state with
      pc := a.state.pc + 1, register := some (a.state.store.resolve left, a.state.store.resolve right) } } := by
  refine .one ?_
  simp only [after?, Program.step, h, execute]

/-- A call that prints shows its operands. -/
theorem print {name : String} {words : List String} (h : p.lines[a.state.pc]? = some (.ok (.call name words)))
    (hname : printNames.contains name = true) :
    Goes p 1 a { a with
      state := { a.state with pc := a.state.pc + 1 }
      seen := .print (String.intercalate " " (words.map a.state.display)) :: a.seen } := by
  refine .one ?_
  simp only [after?, Program.step, h, execute, hname, if_true]
  rfl

/-- What every step keeps, every run keeps. -/
theorem invariant {I : State → Prop} (hstep : ∀ s, I s → Leads I (p.step s)) (h : Goes p n a b) (ha : I a.state) :
    I b.state := by
  induction h with
  | refl a => exact ha
  | @step n a b c hab _ ih => exact ih ((hstep a.state ha).of_after? hab)

end Goes

theorem Reachable.invariant {I : State → Prop} (hinitial : I .initial) (hstep : ∀ s, I s → Leads I (p.step s))
    {s : State} (h : p.Reachable s) : I s := by
  obtain ⟨n, replies, a, hgoes, rfl⟩ := h
  exact hgoes.invariant hstep hinitial

/-! ## Runs -/

/-- What happens in the rest of a run. -/
def rest (p : Program) (budget fuel : Nat) (a : Scene) : Transcript (Except Fault Unit) :=
  (p.runFrom budget fuel a.state).replayFrom a.seen a.replies

theorem rest_of_after? {a b : Scene} (h : p.after? a = some b) (budget fuel : Nat) :
    p.rest budget (fuel + 1) a = p.rest budget fuel b := by
  obtain ⟨s, replies, seen⟩ := a
  unfold after? at h
  unfold rest
  rw [runFrom]
  cases hs : p.step s <;> simp only [hs, Option.some.injEq, reduceCtorEq] at h <;> subst h <;> rfl

/-- **A run can be cut after any number of its steps.** -/
theorem rest_of_goes {n : Nat} {a b : Scene} (h : Goes p n a b) (budget fuel : Nat) :
    p.rest budget (fuel + n) a = p.rest budget fuel b := by
  induction h with
  | refl a => rfl
  | step hstep _ ih => rw [← Nat.add_assoc, rest_of_after? hstep, ih]

/-- Where there is a step left, a run with no budget left faults. -/
theorem rest_zero {a b : Scene} (h : p.after? a = some b) (budget : Nat) :
    p.rest budget 0 a = ⟨a.seen.reverse, .error (.stepBudgetExceeded budget), a.replies⟩ := by
  have hline : a.state.pc < p.lines.size := by
    by_contra hpc
    have hnone : p.lines[a.state.pc]? = none := Array.getElem?_eq_none (Nat.le_of_not_lt hpc)
    simp [after?, step, hnone] at h
  rw [rest, runFrom, if_pos hline, Dialogue.replayFrom]

/-- A run that goes on for more steps than it has left faults. -/
theorem rest_exhausted {n fuel : Nat} {a b : Scene} (h : Goes p n a b) (hn : fuel < n) (budget : Nat) :
    (p.rest budget fuel a).result = .error (.stepBudgetExceeded budget) := by
  induction h generalizing fuel with
  | refl a => exact absurd hn (Nat.not_lt_zero fuel)
  | step hstep _ ih =>
    cases fuel with
    | zero => rw [rest_zero hstep]
    | succ fuel =>
      rw [rest_of_after? hstep]
      exact ih (Nat.lt_of_succ_lt_succ hn)

theorem rest_halt {a : Scene} (h : p.lines.size ≤ a.state.pc) (budget fuel : Nat) :
    p.rest budget fuel a = ⟨a.seen.reverse, .ok (), a.replies⟩ := by
  have hnone : p.lines[a.state.pc]? = none := Array.getElem?_eq_none h
  cases fuel with
  | zero => rw [rest, runFrom, if_neg (Nat.not_lt.mpr h), Dialogue.replayFrom]
  | succ fuel => simp only [rest, runFrom, step, hnone, Dialogue.replayFrom]

theorem rest_fault {a : Scene} {f : Fault} (h : p.step a.state = .fault f) (budget fuel : Nat) :
    p.rest budget (fuel + 1) a = ⟨a.seen.reverse, .error f, a.replies⟩ := by
  simp only [rest, runFrom, h, Dialogue.replayFrom]

theorem replay_run (h : p.unresolved? = none) (budget : Nat) (replies : List (Option String)) :
    (p.run budget).replay replies = p.rest budget budget (.start replies) := by
  rw [run, h]
  rfl

/-! ## Faults -/

/-- A run that faults ran out of its budget or got to a step that faults. -/
theorem fault_of_rest {budget fuel : Nat} {a : Scene} {f : Fault} (h : (p.rest budget fuel a).result = .error f) :
    f = .stepBudgetExceeded budget ∨ ∃ n b, Goes p n a b ∧ p.step b.state = .fault f := by
  induction fuel generalizing a with
  | zero =>
    rw [rest, runFrom, Dialogue.replayFrom] at h
    split at h
    · exact Or.inl (by simpa using h.symm)
    · simp at h
  | succ fuel ih =>
    cases hafter : p.after? a with
    | some b =>
      rw [rest_of_after? hafter] at h
      obtain hf | ⟨n, c, hgoes, hc⟩ := ih h
      · exact Or.inl hf
      · exact Or.inr ⟨n + 1, c, .step hafter hgoes, hc⟩
    | none =>
      rw [rest, runFrom] at h
      cases hs : p.step a.state <;> simp only [after?, hs, reduceCtorEq] at hafter
      case halt => simp [hs, Dialogue.replayFrom] at h
      case fault g =>
        simp only [hs, Dialogue.replayFrom, Except.error.injEq] at h
        exact Or.inr ⟨0, a, .refl a, h ▸ hs⟩

/-- **A run faults at a label that does not exist, at the end of its budget, or where a reachable state
faults.** -/
theorem fault_of_run {budget : Nat} {replies : List (Option String)} {f : Fault}
    (h : ((p.run budget).replay replies).result = .error f) :
    (∃ name, f = .unresolvedLabel name) ∨ f = .stepBudgetExceeded budget ∨
      ∃ s, p.Reachable s ∧ p.step s = .fault f := by
  cases hu : p.unresolved? with
  | some name =>
    rw [run, hu] at h
    exact Or.inl ⟨name, by simpa [Dialogue.replay, Dialogue.replayFrom] using h.symm⟩
  | none =>
    rw [replay_run hu] at h
    obtain hf | ⟨n, b, hgoes, hb⟩ := fault_of_rest h
    · exact Or.inr (Or.inl hf)
    · exact Or.inr (Or.inr ⟨b.state, ⟨n, replies, b, hgoes, rfl⟩, hb⟩)

/-- A line that was decoded faults in arithmetic or for want of a label. -/
theorem fault_of_execute {s : State} {l : Line} {f : Fault} (h : p.execute s l = .fault f) :
    (∃ name, f = .unresolvedLabel name) ∨ ∃ op target source, l = .arith op target source ∧
      (s.store.get target).apply op (s.store.resolve source) = .error f := by
  have hjump : ∀ (t : State) (name : String), p.jump t name = .fault f → ∃ name, f = .unresolvedLabel name := by
    intro t name ht
    unfold jump at ht
    split at ht
    · simp at ht
    · exact ⟨name, by simpa using ht.symm⟩
  cases l with
  | arith op target source =>
    simp only [execute] at h
    split at h
    · simp at h
    · rename_i g hg
      cases h
      exact Or.inr ⟨op, target, source, rfl, hg⟩
  | jump label => exact Or.inl (hjump _ _ h)
  | jumpIf relation label =>
    simp only [execute] at h
    split at h
    · exact Or.inl (hjump _ _ h)
    · simp at h
  | call name args =>
    simp only [execute] at h
    split_ifs at h
    exact Or.inl (hjump _ _ h)
  | ret =>
    simp only [execute] at h
    split at h <;> simp at h
  | _ => simp [execute] at h

end Program

/-! ## Programs given as text -/

/-- The trimmed lines of a text. -/
def textLines (text : String) : List (List Char) := (text.toList.splitOn '\n').map Text.trim

theorem fault_of_decode {line : List Char} {f : Fault} (h : decode line = .error f) :
    (∃ op, f = .missingOperand op) ∨ f = .unknownInstruction (String.ofList line) := by
  unfold decode at h
  split_ifs at h
  simp only at h
  split at h
  · unfold ofOperands at h
    split at h <;> cases h
    exact Or.inl ⟨_, rfl⟩
  · cases h
    exact Or.inr rfl

namespace Program

theorem getElem?_lines_ofText (text : String) (i : Nat) :
    (ofText text).lines[i]? = (textLines text)[i]?.map decode := by
  simp [ofText, textLines]

/-- A step of a text faults at a line that cannot be decoded, or in executing one that can. -/
theorem fault_of_step {text : String} {s : State} {f : Fault} (h : (ofText text).step s = .fault f) :
    ∃ line, (textLines text)[s.pc]? = some line ∧ (decode line = .error f ∨
      ∃ l, decode line = .ok l ∧ (ofText text).execute { s with pc := s.pc + 1 } l = .fault f) := by
  unfold step at h
  rw [getElem?_lines_ofText] at h
  cases hline : (textLines text)[s.pc]? with
  | none => simp [hline] at h
  | some line =>
    refine ⟨line, rfl, ?_⟩
    rw [hline, Option.map_some] at h
    cases hl : decode line with
    | error g =>
      rw [hl] at h
      exact Or.inl (congrArg _ (Step.fault.inj h))
    | ok l =>
      rw [hl] at h
      exact Or.inr ⟨l, rfl, h⟩

/-- No step spends the budget. -/
theorem step_ne_exceeded {text : String} {s : State} {budget : Nat} :
    (ofText text).step s ≠ .fault (.stepBudgetExceeded budget) := by
  intro h
  obtain ⟨line, -, hdecode | ⟨l, -, hexecute⟩⟩ := fault_of_step h
  · obtain ⟨op, hf⟩ | hf := fault_of_decode hdecode <;> cases hf
  · obtain ⟨name, hf⟩ | ⟨op, target, source, -, hf⟩ := fault_of_execute hexecute
    · cases hf
    · obtain hf | hf | ⟨t, hf, -⟩ := Value.fault_of_apply hf <;> cases hf

end Program

end Machine

end Dotlang
