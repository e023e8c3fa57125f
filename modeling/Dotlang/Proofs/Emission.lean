import Dotlang.Assembly.Emitter
import Dotlang.Instruction.Lowering
import Dotlang.Proofs.Nodes
import Mathlib

/-!
# Where the lines of a program come from

* `Statement.Yields table s i` : the instruction `i` is one that the statement `s` has of its own;
* `exists_yields_of_mem_lower` : every instruction of a program is one that a node of its tree yields;
* `Emitter.All P e` : `P` holds of every line in every buffer of `e`;
* `mem_assemble` : a line of the assembly is a `RET`, the label of a function, or a line of an instruction.
-/

namespace Dotlang

/-! ## Numbering -/

theorem run_pure {σ α : Type} (a : α) (s : σ) : (pure a : StateM σ α).run s = (a, s) := rfl

theorem run_bind {σ α β : Type} (m : StateM σ α) (f : α → StateM σ β) (s : σ) :
    (m >>= f).run s = (f (m.run s).1).run (m.run s).2 := rfl

theorem run_newLabel (n : Nat) : newLabel.run n = (⟨n + 1⟩, n + 1) := rfl

/-! ## From statements to instructions -/

/-- What a statement contributes to the instructions of its own. Its jumps and labels may be any. -/
inductive Statement.Yields (table : SymbolTable) : Statement → Instruction → Prop where
  | declare {pos d c} (h : d.value = some c) : Yields table (.declare pos d) (.assign d.name c)
  | assign {pos name c} : Yields table (.assign pos name (some c)) (.assign name c)
  | call {pos name args builtin} : Yields table (.call pos name args builtin)
      (.call name args (if builtin then none else some (table.params name)))
  | functionBegin {pos name params body} : Yields table (.function pos name params body) (.functionBegin name)
  | functionEnd {pos name params body} : Yields table (.function pos name params body) .functionEnd
  | test {s : Statement} {c jump label} (h : c ∈ s.conds) :
      Yields table s (.compare (Condition.ofChain c) jump label)
  | init {pos d c cond step body} (h : d.value = some c) :
      Yields table (.counting pos (some d) cond step body) (.assign d.name c)
  | step {pos init cond step body i} (h : i ∈ Instruction.ofStep step) :
      Yields table (.counting pos init cond (some step) body) i
  | jump {s : Statement} {label} : Yields table s (.jump label)
  | label {s : Statement} {label} : Yields table s (.label label)

open Instruction (ofValue? jumpUnless jumpWhen ofStep branch)

theorem Instruction.mem_jumpUnless {cond : Option Chain} {label : Label} {i : Instruction}
    (h : i ∈ jumpUnless cond label) : ∃ c ∈ cond.toList, ∃ jump, i = .compare (Condition.ofChain c) jump label := by
  cases cond with
  | none => simp [jumpUnless] at h
  | some c => exact ⟨c, by simp, _, by simpa [jumpUnless] using h⟩

theorem Instruction.mem_jumpWhen {cond : Option Chain} {label : Label} {i : Instruction}
    (h : i ∈ jumpWhen cond label) : ∃ c ∈ cond.toList, ∃ jump, i = .compare (Condition.ofChain c) jump label := by
  cases cond with
  | none => simp [jumpWhen] at h
  | some c => exact ⟨c, by simp, _, by simpa [jumpWhen] using h⟩

theorem Instruction.mem_ofValue? {target : String} {value : Option Chain} {i : Instruction}
    (h : i ∈ ofValue? target value) : ∃ c, value = some c ∧ i = .assign target c := by
  cases value with
  | none => simp [ofValue?] at h
  | some c => exact ⟨c, rfl, by simpa [ofValue?] using h⟩

mutual

theorem Statement.exists_yields {table : SymbolTable} {loopExit : Option Label} {n : Nat} {i : Instruction} :
    ∀ {s : Statement}, i ∈ ((s.lower table loopExit).run n).1 → ∃ t ∈ s.nodes, t.Yields table i
  | .block pos body, h => by
    have hbody : i ∈ ((lowerBody table loopExit body).run n).1 := h
    obtain ⟨t, ht, hi⟩ := exists_yields hbody
    exact ⟨t, List.mem_cons_of_mem _ ht, hi⟩
  | .declare pos d, h => by
    obtain ⟨c, hc, rfl⟩ := Instruction.mem_ofValue? h
    exact ⟨_, Statement.self_mem_nodes _, .declare hc⟩
  | .assign pos name value, h => by
    obtain ⟨c, rfl, rfl⟩ := Instruction.mem_ofValue? h
    exact ⟨_, Statement.self_mem_nodes _, .assign⟩
  | .call pos name args builtin, h => by
    obtain rfl := List.mem_singleton.mp h
    exact ⟨_, Statement.self_mem_nodes _, .call⟩
  | .function pos name params body, h => by
    simp only [Statement.lower, run_bind, run_pure, List.mem_append, List.mem_singleton] at h
    rcases h with (rfl | h) | rfl
    · exact ⟨_, Statement.self_mem_nodes _, .functionBegin⟩
    · obtain ⟨t, ht, hi⟩ := exists_yields h
      exact ⟨t, List.mem_cons_of_mem _ ht, hi⟩
    · exact ⟨_, Statement.self_mem_nodes _, .functionEnd⟩
  | .conditional pos cond body alternatives, h => by
    simp only [Statement.lower, run_bind, run_pure, branch, List.mem_append, List.mem_cons, List.not_mem_nil,
      or_false] at h
    rcases h with (((h | h) | rfl | rfl) | h) | rfl
    · obtain ⟨c, hc, jump, rfl⟩ := Instruction.mem_jumpUnless h
      exact ⟨_, Statement.self_mem_nodes _, .test (List.mem_append_left _ hc)⟩
    · obtain ⟨t, ht, hi⟩ := exists_yields h
      exact ⟨t, List.mem_cons_of_mem _ (List.mem_append_left _ ht), hi⟩
    · exact ⟨_, Statement.self_mem_nodes _, .jump⟩
    · exact ⟨_, Statement.self_mem_nodes _, .label⟩
    · obtain ⟨t, ht, hi⟩ | ⟨c, hc, jump, label, rfl⟩ | ⟨label, rfl | rfl⟩ := Alternatives.exists_yields h
      · exact ⟨t, List.mem_cons_of_mem _ (List.mem_append_right _ ht), hi⟩
      · exact ⟨_, Statement.self_mem_nodes _, .test (List.mem_append_right _ hc)⟩
      · exact ⟨_, Statement.self_mem_nodes _, .jump⟩
      · exact ⟨_, Statement.self_mem_nodes _, .label⟩
    · exact ⟨_, Statement.self_mem_nodes _, .label⟩
  | .whileLoop pos cond body, h => by
    simp only [Statement.lower, run_bind, run_pure, List.mem_append, List.mem_cons, List.not_mem_nil,
      or_false] at h
    rcases h with ((rfl | h) | h) | rfl | rfl
    · exact ⟨_, Statement.self_mem_nodes _, .label⟩
    · obtain ⟨c, hc, jump, rfl⟩ := Instruction.mem_jumpUnless h
      exact ⟨_, Statement.self_mem_nodes _, .test hc⟩
    · obtain ⟨t, ht, hi⟩ := exists_yields h
      exact ⟨t, List.mem_cons_of_mem _ ht, hi⟩
    · exact ⟨_, Statement.self_mem_nodes _, .jump⟩
    · exact ⟨_, Statement.self_mem_nodes _, .label⟩
  | .doWhile pos body cond, h => by
    simp only [Statement.lower, run_bind, run_pure, List.mem_append, List.mem_cons, List.not_mem_nil,
      or_false] at h
    rcases h with ((rfl | h) | h) | rfl
    · exact ⟨_, Statement.self_mem_nodes _, .label⟩
    · obtain ⟨t, ht, hi⟩ := exists_yields h
      exact ⟨t, List.mem_cons_of_mem _ ht, hi⟩
    · obtain ⟨c, hc, jump, rfl⟩ := Instruction.mem_jumpWhen h
      exact ⟨_, Statement.self_mem_nodes _, .test hc⟩
    · exact ⟨_, Statement.self_mem_nodes _, .label⟩
  | .counting pos init cond step body, h => by
    simp only [Statement.lower, run_bind, run_pure, List.mem_append, List.mem_cons, List.not_mem_nil,
      or_false] at h
    rcases h with ((((h | rfl) | h) | h) | h) | rfl | rfl
    · cases init with
      | none => simp at h
      | some d =>
        obtain ⟨c, hc, rfl⟩ := Instruction.mem_ofValue? h
        exact ⟨_, Statement.self_mem_nodes _, .init hc⟩
    · exact ⟨_, Statement.self_mem_nodes _, .label⟩
    · obtain ⟨c, hc, jump, rfl⟩ := Instruction.mem_jumpUnless h
      exact ⟨_, Statement.self_mem_nodes _, .test hc⟩
    · obtain ⟨t, ht, hi⟩ := exists_yields h
      exact ⟨t, List.mem_cons_of_mem _ ht, hi⟩
    · cases step with
      | none => simp at h
      | some step => exact ⟨_, Statement.self_mem_nodes _, .step h⟩
    · exact ⟨_, Statement.self_mem_nodes _, .jump⟩
    · exact ⟨_, Statement.self_mem_nodes _, .label⟩
  | .brk pos, h => by
    cases loopExit with
    | none => exact absurd (show i ∈ [] from h) List.not_mem_nil
    | some label =>
      obtain rfl := List.mem_singleton.mp h
      exact ⟨_, Statement.self_mem_nodes _, .jump⟩

/-- Every instruction of a body is one that a node of the body yields. -/
theorem exists_yields {table : SymbolTable} {loopExit : Option Label} {n : Nat} {i : Instruction} :
    ∀ {body : List Statement}, i ∈ ((lowerBody table loopExit body).run n).1 →
      ∃ t ∈ bodyNodes body, t.Yields table i
  | [], h => absurd (show i ∈ [] from h) List.not_mem_nil
  | s :: ss, h => by
    simp only [lowerBody, run_bind, run_pure, List.mem_append] at h
    rcases h with h | h
    · obtain ⟨t, ht, hi⟩ := Statement.exists_yields h
      exact ⟨t, List.mem_append_left _ ht, hi⟩
    · obtain ⟨t, ht, hi⟩ := exists_yields h
      exact ⟨t, List.mem_append_right _ ht, hi⟩

theorem Alternatives.exists_yields {table : SymbolTable} {loopExit : Option Label} {exit : Label} {n : Nat}
    {i : Instruction} :
    ∀ {a : Alternatives}, i ∈ ((a.lower table loopExit exit).run n).1 →
      (∃ t ∈ a.nodes, t.Yields table i) ∨
        (∃ c ∈ a.conds, ∃ jump label, i = .compare (Condition.ofChain c) jump label) ∨
        ∃ label, i = .jump label ∨ i = .label label
  | .done, h => absurd (show i ∈ [] from h) List.not_mem_nil
  | .otherwise body, h => by
    have hbody : i ∈ ((lowerBody table loopExit body).run n).1 := h
    exact Or.inl (Dotlang.exists_yields hbody)
  | .branch cond body rest, h => by
    simp only [Alternatives.lower, run_bind, run_pure, branch, List.mem_append, List.mem_cons,
      List.not_mem_nil, or_false] at h
    rcases h with ((h | h) | rfl | rfl) | h
    · obtain ⟨c, hc, jump, rfl⟩ := Instruction.mem_jumpUnless h
      exact Or.inr (Or.inl ⟨c, List.mem_append_left _ hc, jump, _, rfl⟩)
    · obtain ⟨t, ht, hi⟩ := Dotlang.exists_yields h
      exact Or.inl ⟨t, List.mem_append_left _ ht, hi⟩
    · exact Or.inr (Or.inr ⟨_, Or.inl rfl⟩)
    · exact Or.inr (Or.inr ⟨_, Or.inr rfl⟩)
    · obtain ⟨t, ht, hi⟩ | ⟨c, hc, jump, label, rfl⟩ | hi := Alternatives.exists_yields h
      · exact Or.inl ⟨t, List.mem_append_right _ ht, hi⟩
      · exact Or.inr (Or.inl ⟨c, List.mem_append_right _ hc, jump, label, rfl⟩)
      · exact Or.inr (Or.inr hi)

end

theorem exists_yields_of_mem_lower {table : SymbolTable} {body : List Statement} {i : Instruction}
    (h : i ∈ lower table body) : ∃ s ∈ bodyNodes body, s.Yields table i := exists_yields h

/-! ## From instructions to lines -/

namespace Assembly

namespace Emitter

/-- A property of every line in every buffer. -/
def All (P : Line → Prop) (e : Emitter) : Prop :=
  (∀ l ∈ e.main, P l) ∧ (∀ l ∈ e.finished, P l) ∧ ∀ body ∈ e.opened, ∀ l ∈ body, P l

variable {P : Line → Prop} {e : Emitter}

theorem All.put (h : e.All P) {ls : List Line} (hls : ∀ l ∈ ls, P l) : (e.put ls).All P := by
  obtain ⟨main, finished, opened, scratch⟩ := e
  obtain ⟨hmain, hfinished, hopened⟩ := h
  cases opened with
  | nil => exact ⟨fun l hl => (List.mem_append.mp hl).elim (hmain l) (hls l), hfinished, hopened⟩
  | cons body outer =>
    refine ⟨hmain, hfinished, fun b hb => ?_⟩
    rcases List.mem_cons.mp hb with rfl | hb
    · exact fun l hl => (List.mem_append.mp hl).elim (hopened body List.mem_cons_self l) (hls l)
    · exact hopened b (List.mem_cons_of_mem _ hb)

theorem All.close (h : e.All P) : e.close.All P := by
  obtain ⟨main, finished, opened, scratch⟩ := e
  obtain ⟨hmain, hfinished, hopened⟩ := h
  cases opened with
  | nil => exact ⟨hmain, hfinished, hopened⟩
  | cons body outer =>
    refine ⟨hmain, fun l hl => ?_, fun b hb => hopened b (List.mem_cons_of_mem _ hb)⟩
    exact (List.mem_append.mp hl).elim (hfinished l) (hopened body List.mem_cons_self l)

/-- What `P` has to hold of for an instruction to keep it. -/
def Keeps (P : Line → Prop) (i : Instruction) : Prop :=
  (∀ name, i = .functionBegin name → P (.label name)) ∧ ∀ n, ∀ l ∈ ((lines i).run n).1, P l

theorem All.emit (h : e.All P) (hret : P .ret) {i : Instruction} (hi : Keeps P i) : (e.emit i).All P := by
  have hput : (e.put ((lines i).run e.scratch).1).All P := h.put (hi.2 e.scratch)
  cases i with
  | functionBegin name =>
    refine ⟨h.1, h.2.1, fun body hbody => ?_⟩
    rcases List.mem_cons.mp hbody with rfl | hbody
    · intro l hl
      rw [List.mem_singleton.mp hl]
      exact hi.1 name rfl
    · exact h.2.2 body hbody
  | functionEnd =>
    refine (h.put fun l hl => ?_).close
    rw [List.mem_singleton.mp hl]
    exact hret
  | _ => exact hput

theorem All.emitAll (h : e.All P) (hret : P .ret) {is : List Instruction} (his : ∀ i ∈ is, Keeps P i) :
    (e.emitAll is).All P := by
  have hfold : (is.foldl Emitter.emit e).All P := by
    induction is generalizing e with
    | nil => exact h
    | cons i is ih =>
      exact ih (h.emit hret (his i List.mem_cons_self)) fun j hj => his j (List.mem_cons_of_mem _ hj)
  obtain ⟨hmain, hfinished, hopened⟩ := hfold
  unfold Emitter.emitAll finish
  split
  · exact ⟨hmain, hfinished, hopened⟩
  · refine ⟨fun l hl => ?_, fun l hl => absurd hl List.not_mem_nil, hopened⟩
    simp only [List.mem_append, List.mem_singleton] at hl
    rcases hl with (hl | rfl) | hl
    · exact hmain l hl
    · exact hret
    · exact hfinished l hl

end Emitter

/-- A line of the assembly ends a function, is the label of one, or is a line of an instruction. -/
theorem mem_assemble {is : List Instruction} {l : Line} (h : l ∈ assemble is) :
    l = .ret ∨ (∃ name, .functionBegin name ∈ is ∧ l = .label name) ∨
      ∃ i ∈ is, ∃ n, l ∈ ((lines i).run n).1 := by
  have hempty : Emitter.empty.All fun l => l = .ret ∨ (∃ name, .functionBegin name ∈ is ∧ l = .label name) ∨
      ∃ i ∈ is, ∃ n, l ∈ ((lines i).run n).1 := by
    simp [Emitter.All, Emitter.empty]
  refine (hempty.emitAll (Or.inl rfl) fun i hi => ⟨fun name hname => ?_, fun n l hl => ?_⟩).1 l h
  · exact Or.inr (Or.inl ⟨name, hname ▸ hi, rfl⟩)
  · exact Or.inr (Or.inr ⟨i, hi, n, hl⟩)

end Assembly

end Dotlang
