import Dotlang.Proofs.Control
import Dotlang.Proofs.Hoisting

/-!
# What a conditional jump tests

* `Paired ls` : in the lines, comparisons and conditional jumps stand in pairs;
* `paired_loaded` : so they do in the assembly of every source;
* `Tested ls s` : the register is full before a conditional jump, and no address on the stack is that of one;
* `register_holds_comparison` : a conditional jump tests what the comparison right before it compared.
-/

namespace Dotlang

open Assembly (Line lines assemble IsBlock)
open Machine (Program State)
open Machine.Program (Goes Moves)

/-! ## Pairs -/

namespace Assembly.Line

def isCompare : Line → Bool
  | compare .. => true
  | _ => false

def isJumpIf : Line → Bool
  | jumpIf .. => true
  | _ => false

theorem no_test_of_passes {l : Line} (h : l.passes = true) : l.isCompare = false ∧ l.isJumpIf = false := by
  cases l <;> first | exact ⟨rfl, rfl⟩ | cases h

end Assembly.Line

/-- Every comparison stands right before a conditional jump, and every conditional jump right behind a comparison. -/
inductive Paired : List Line → Prop where
  | nil : Paired []
  | test (left right : String) (relation : Relation) (name : String) {ls : List Line} (h : Paired ls) :
      Paired (.compare left right :: .jumpIf relation name :: ls)
  | other {l : Line} {ls : List Line} (hcompare : l.isCompare = false) (hjump : l.isJumpIf = false) (h : Paired ls) :
      Paired (l :: ls)

namespace Paired

variable {ls more : List Line}

theorem append (h : Paired ls) (h' : Paired more) : Paired (ls ++ more) := by
  induction h with
  | nil => exact h'
  | test left right relation name _ ih => exact .test left right relation name ih
  | other hcompare hjump _ ih => exact .other hcompare hjump ih

theorem one {l : Line} (hcompare : l.isCompare = false) (hjump : l.isJumpIf = false) : Paired [l] :=
  .other hcompare hjump .nil

theorem straight (h : ∀ l ∈ ls, l.isStraight = true) : Paired ls := by
  induction ls with
  | nil => exact .nil
  | cons l ls ih =>
    obtain ⟨hl, hls⟩ := List.forall_mem_cons.mp h
    obtain ⟨hcompare, hjump⟩ := Line.no_test_of_passes (Line.passes_of_isStraight hl)
    exact .other hcompare hjump (ih hls)

theorem blocks (h : Blocks Paired ls) : Paired ls := by
  obtain ⟨blocks, hblocks, rfl⟩ := h
  induction blocks with
  | nil => exact .nil
  | cons b bs ih =>
    obtain ⟨hb, hbs⟩ := List.forall_mem_cons.mp hblocks
    exact hb.append (ih hbs)

theorem head (h : Paired ls) : ls[0]?.any Line.isJumpIf = false := by
  cases h with
  | nil | test => rfl
  | other _ hjump _ => exact hjump

/-- A line is a comparison if and only if the next one is a conditional jump. -/
theorem next (h : Paired ls) (k : Nat) : ls[k + 1]?.any Line.isJumpIf = ls[k]?.any Line.isCompare := by
  induction h generalizing k with
  | nil => rfl
  | @test left right relation name ls hls ih =>
    match k with
    | 0 => rfl
    | 1 => exact hls.head
    | k + 2 => exact ih k
  | @other l ls hcompare _ hls ih =>
    cases k with
    | zero => exact hls.head.trans hcompare.symm
    | succ k => exact ih k

end Paired

theorem paired_lines (i : Instruction) (n : Nat) : Paired ((lines i).run n).1 := by
  cases i with
  | compare cond relation label =>
    exact (Paired.straight (Assembly.isStraight_operand cond.lhs n)).append (.test _ _ relation label.name .nil)
  | assign target value => exact .straight fun l => Assembly.isStraight_accumulate l
  | step | jump | label => exact .one rfl rfl
  | call name args params =>
    cases params with
    | none => exact (Paired.straight (Assembly.isStraight_operands args n)).append (.one rfl rfl)
    | some params => exact (Paired.straight (Assembly.isStraight_bindAll params args)).append (.one rfl rfl)
  | functionBegin | functionEnd => exact .nil

theorem Assembly.IsBlock.paired {is : List Instruction} {b : List Line} (h : IsBlock is b) : Paired b := by
  cases h with
  | ret | label => exact .one rfl rfl
  | lines _ n => exact paired_lines _ n

/-- **In the assembly of a source comparisons and conditional jumps stand in pairs.** -/
theorem paired_loaded (source : String) : Paired (analyze source).loaded := by
  unfold Analysis.loaded
  split_ifs
  · exact .one rfl rfl
  · obtain ⟨o, ho, hlower, -⟩ := outlined_lower (analyze source).symbols (analyze source).body
    obtain ⟨blocks, hblocks, hlines⟩ := Outline.blocks_assemble ho
    rw [Analysis.lines, ← hlower]
    exact .blocks ⟨blocks, fun b hb => (hblocks b hb).paired, hlines⟩

/-! ## The register -/

/-- The register is full before a conditional jump and else empty. No function returns to a conditional jump. -/
structure Tested (ls : List Line) (s : State) : Prop where
  register : s.register.isSome = ls[s.pc]?.any Line.isJumpIf
  stack : ∀ k ∈ s.stack, ls[k]?.any Line.isJumpIf = false

theorem Tested.moves {ls : List Line} (hls : Paired ls) {s t : State} {l : Line} (hs : Tested ls s)
    (hl : ls[s.pc]? = some l) (h : Moves (.ofLines ls) s l t) : Tested ls t := by
  obtain ⟨hregister, hstack⟩ := hs
  have hnext := hls.next s.pc
  rw [hl, Option.any_some] at hregister hnext
  have hlabel {name : String} {pc : Nat} (hpc : (Program.ofLines ls).lineOf? name = some pc) :
      ls[pc]?.any Line.isJumpIf = false := by
    rw [Machine.label_of_lineOf? hpc]
    rfl
  cases h with
  | on hpasses store =>
    obtain ⟨hcompare, hjump⟩ := Line.no_test_of_passes hpasses
    exact ⟨hregister.trans (hjump.trans (hnext.trans hcompare).symm), hstack⟩
  | compare left right => exact ⟨hnext.symm, hstack⟩
  | jump hpc => exact ⟨hregister.trans (hlabel hpc).symm, hstack⟩
  | held hpc => exact ⟨(hlabel hpc).symm, hstack⟩
  | missed relation name => exact ⟨hnext.symm, hstack⟩
  | call args _ hpc => exact ⟨hregister.trans (hlabel hpc).symm, List.forall_mem_cons.mpr ⟨hnext, hstack⟩⟩
  | ret hpop =>
    rw [hpop] at hstack
    obtain ⟨hpc, hrest⟩ := List.forall_mem_cons.mp hstack
    exact ⟨hregister.trans hpc.symm, hrest⟩

theorem tested_of_reachable {ls : List Line} (hls : Paired ls) {s : State} (hs : (Program.ofLines ls).Reachable s) :
    Tested ls s := by
  refine hs.of_moves (I := Tested ls) ⟨hls.head.symm, fun k hk => absurd hk List.not_mem_nil⟩ ?_
  exact fun s l t hs hl hmove => hs.moves hls hl hmove

theorem any_isJumpIf {ls : List Line} {k : Nat} :
    ls[k]?.any Line.isJumpIf = true ↔ ∃ relation name, ls[k]? = some (.jumpIf relation name) := by
  rw [Option.any_eq_true]
  constructor
  · rintro ⟨l, hl, hjump⟩
    cases l with
    | jumpIf relation name => exact ⟨relation, name, hl⟩
    | _ => cases hjump
  · rintro ⟨relation, name, hl⟩
    exact ⟨_, hl, rfl⟩

/-- If the register is full, then a comparison has just filled it. -/
theorem Tested.exists_compare {ls : List Line} {s t : State} {l : Line} (hs : Tested ls s) (hl : ls[s.pc]? = some l)
    (h : Moves (.ofLines ls) s l t) (ht : t.register.isSome = true) :
    ∃ left right, l = .compare left right ∧
      t = { s with pc := s.pc + 1, register := some (s.store.resolve left, s.store.resolve right) } := by
  have hregister := hs.register
  rw [hl, Option.any_some] at hregister
  cases h with
  | compare left right => exact ⟨left, right, rfl, rfl⟩
  | held | missed => cases ht
  | on hpasses store =>
    cases (Line.no_test_of_passes hpasses).2.symm.trans (hregister.symm.trans ht)
  | jump | call | ret => cases hregister.symm.trans ht

/-- **A conditional jump tests what the comparison right before it compared.** Wherever a run gets, the register is full
if and only if the next line is a conditional jump. The step before then was a comparison, and the register holds the
two values compared. No comparison finds the register full. -/
theorem register_holds_comparison (source : String) :
    (∀ s, (analyze source).program.Reachable s →
      (s.register.isSome = true ↔ ∃ relation name,
        (analyze source).program.lines[s.pc]? = some (.ok (.jumpIf relation name)))) ∧
    (∀ n replies b relation name, Goes (analyze source).program n (.start replies) b →
      (analyze source).program.lines[b.state.pc]? = some (.ok (.jumpIf relation name)) →
      ∃ m a left right, n = m + 1 ∧ Goes (analyze source).program m (.start replies) a ∧
        (analyze source).program.after? a = some b ∧
        (analyze source).program.lines[a.state.pc]? = some (.ok (.compare left right)) ∧
        b.state = { a.state with
          pc := a.state.pc + 1, register := some (a.state.store.resolve left, a.state.store.resolve right) } ∧
        (analyze source).program.step b.state =
          if relation.holds (a.state.store.resolve left) (a.state.store.resolve right) then
            (analyze source).program.jump { a.state with pc := a.state.pc + 2, register := none } name
          else .next { a.state with pc := a.state.pc + 2, register := none }) ∧
    ∀ s left right, (analyze source).program.Reachable s →
      (analyze source).program.lines[s.pc]? = some (.ok (.compare left right)) →
      s.register = none := by
  have hpaired := paired_loaded source
  simp only [program_analyze, Machine.lines_ofLines]
  refine ⟨fun s hs => ?_, fun n replies b relation name hgoes hb => ?_, fun s left right hs hl => ?_⟩
  · rw [(tested_of_reachable hpaired hs).register, any_isJumpIf]
  · have hfull : b.state.register.isSome = true := by
      rw [(tested_of_reachable hpaired ⟨n, replies, b, hgoes, rfl⟩).register, any_isJumpIf]
      exact ⟨relation, name, hb⟩
    cases n with
    | zero =>
      cases hgoes
      cases hfull
    | succ m =>
      obtain ⟨a, ha, hab⟩ := hgoes.last
      obtain ⟨l, hl, hmove⟩ := Program.moves_of_after? hab
      obtain ⟨left, right, rfl, hstate⟩ :=
        (tested_of_reachable hpaired ⟨m, replies, a, ha, rfl⟩).exists_compare hl hmove hfull
      refine ⟨m, a, left, right, rfl, ha, hab, hl, hstate, ?_⟩
      rw [Machine.step_ofLines hb, hstate]
      rfl
  · have hregister := (tested_of_reachable hpaired hs).register
    rw [hl] at hregister
    exact Option.isNone_iff_eq_none.mp (Option.isSome_eq_false_iff.mp hregister)

/-- The first step compares, the second one jumps or does not. -/
def guardedPrint : String := "oye (2 >. 1) \x7b printO(1); \x7d"

theorem register_holds_comparison_in_guardedPrint :
    ∃ a b left right, Goes (analyze guardedPrint).program 1 (.start []) b ∧
      (analyze guardedPrint).program.lines[b.state.pc]? = some (.ok (.jumpIf .le "L2")) ∧
      (analyze guardedPrint).program.after? a = some b ∧
      (analyze guardedPrint).program.lines[a.state.pc]? = some (.ok (.compare left right)) ∧
      b.state.register = some (a.state.store.resolve left, a.state.store.resolve right) := by
  have hstep : ((analyze guardedPrint).program.after? (.start [])).any (fun b => b.state.pc = 1) = true := by
    decide +kernel
  have hline : (analyze guardedPrint).program.lines[1]? = some (.ok (.jumpIf .le "L2")) := by decide +kernel
  obtain ⟨b, hb, hpc⟩ := (Option.any_eq_true _ _).mp hstep
  rw [← of_decide_eq_true hpc] at hline
  obtain ⟨m, a, left, right, -, -, hab, hcompare, hstate, -⟩ :=
    (register_holds_comparison guardedPrint).2.1 1 [] b .le "L2" (.one hb) hline
  exact ⟨a, b, left, right, .one hb, hline, hab, hcompare, congrArg State.register hstate⟩

end Dotlang
