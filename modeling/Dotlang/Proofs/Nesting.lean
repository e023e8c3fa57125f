import Dotlang.Proofs.Layout
import Dotlang.Proofs.Outline

/-!
# Lowered programs are closed

* `WellNested depth is` : the functions that are open and those that `is` begins end in `is`, and no others;
* `wellNested_iff` : the instructions of outlines are the well nested ones;
* `perm_labels` : instructions that use each number once have these labels and no others;
* `lowered_programs_are_closed` : labels, jumps and functions of a lowered tree.
-/

namespace Dotlang

/-! ## Nesting -/

/-- Every function that begins ends later, and so do `depth` functions that are open before. No other function ends. -/
def WellNested : Nat → List Instruction → Prop
  | depth, [] => depth = 0
  | depth, .functionBegin _ :: is => WellNested (depth + 1) is
  | 0, .functionEnd :: _ => False
  | depth + 1, .functionEnd :: is => WellNested depth is
  | depth, _ :: is => WellNested depth is

instance decidableWellNested : (depth : Nat) → (is : List Instruction) → Decidable (WellNested depth is)
  | depth, [] => inferInstanceAs (Decidable (depth = 0))
  | depth, .functionBegin _ :: is => decidableWellNested (depth + 1) is
  | 0, .functionEnd :: _ => inferInstanceAs (Decidable False)
  | depth + 1, .functionEnd :: is => decidableWellNested depth is
  | depth, .assign .. :: is | depth, .step .. :: is | depth, .compare .. :: is | depth, .jump _ :: is
  | depth, .label _ :: is | depth, .call .. :: is => decidableWellNested depth is

namespace WellNested

variable {i : Instruction} {is : List Instruction} {depth : Nat}

theorem cons_iff (h : i.isMark = false) : WellNested depth (i :: is) ↔ WellNested depth is := by
  cases i <;> first | rfl | cases h

theorem outline_append_iff {o : Outline} (ho : o.Proper) :
    WellNested depth (o.instructions ++ is) ↔ WellNested depth is := by
  induction o generalizing depth is with
  | done => rfl
  | plain i rest ih =>
    rw [Outline.instructions, List.cons_append, cons_iff ho.1]
    exact ih ho.2
  | function name body rest ihbody ih =>
    rw [Outline.instructions, List.append_assoc, List.cons_append, List.cons_append, WellNested, ihbody ho.1,
      WellNested]
    exact ih ho.2

/-- Behind an outline the open functions end, each with an outline behind its end. -/
theorem exists_outlines (h : WellNested depth is) :
    ∃ (o : Outline) (os : List Outline), o.Proper ∧ (∀ p ∈ os, p.Proper) ∧ os.length = depth ∧
      is = o.instructions ++ os.flatMap fun p => .functionEnd :: p.instructions := by
  induction is generalizing depth with
  | nil => exact ⟨.done, [], trivial, List.forall_mem_nil _, h.symm, rfl⟩
  | cons i is ih =>
    by_cases hi : i.isMark = false
    · obtain ⟨o, os, ho, hos, hlength, rfl⟩ := ih ((cons_iff hi).mp h)
      exact ⟨.plain i o, os, ⟨hi, ho⟩, hos, hlength, rfl⟩
    · cases i with
      | functionBegin name =>
        -- The function that begins is the first one to end behind the outline.
        obtain ⟨body, os, hbody, hos, hlength, rfl⟩ := ih h
        obtain ⟨rest, os, rfl⟩ := List.exists_cons_of_length_eq_add_one hlength
        obtain ⟨hrest, hos⟩ := List.forall_mem_cons.mp hos
        refine ⟨.function name body rest, os, ⟨hbody, hrest⟩, hos, Nat.succ.inj hlength, ?_⟩
        simp only [Outline.instructions, List.flatMap_cons, List.cons_append, List.append_assoc]
      | functionEnd =>
        cases depth with
        | zero => exact h.elim
        | succ depth =>
          obtain ⟨o, os, ho, hos, hlength, rfl⟩ := ih h
          exact ⟨.done, o :: os, trivial, List.forall_mem_cons.mpr ⟨ho, hos⟩, congrArg Nat.succ hlength, rfl⟩
      | _ => exact absurd rfl hi

end WellNested

/-- **The instructions of outlines are the well nested ones.** -/
theorem wellNested_iff {is : List Instruction} : WellNested 0 is ↔ ∃ o : Outline, o.Proper ∧ o.instructions = is := by
  constructor
  · intro h
    obtain ⟨o, os, ho, -, hlength, rfl⟩ := h.exists_outlines
    rw [List.length_eq_zero_iff.mp hlength]
    exact ⟨o, ho, (List.append_nil _).symm⟩
  · rintro ⟨o, ho, rfl⟩
    have hiff : WellNested 0 (o.instructions ++ []) ↔ WellNested 0 [] := WellNested.outline_append_iff ho
    rw [List.append_nil] at hiff
    exact hiff.mpr rfl

/-- As many functions end as begin. -/
theorem count_functionEnd {o : Outline} (ho : o.Proper) : o.instructions.count .functionEnd = o.functions.length := by
  induction o with
  | done => rfl
  | plain i rest ih =>
    have hi : (i == .functionEnd) = false := beq_eq_false_iff_ne.mpr fun h => by
      have hmark := ho.1
      rw [h] at hmark
      cases hmark
    rw [Outline.instructions, List.count_cons, hi, ih ho.2]
    rfl
  | function name body rest ihbody ih =>
    rw [Outline.instructions, List.count_append, List.count_cons, List.count_cons_self, ihbody ho.1, ih ho.2,
      Outline.functions, List.length_cons, List.length_append]
    simp only [beq_iff_eq, reduceCtorEq, if_false]
    omega

/-! ## Labels -/

/-- The label that an instruction places. -/
def Instruction.label? : Instruction → Option Label
  | .label l => some l
  | _ => none

theorem count_filterMap_label? (is : List Instruction) (l : Label) :
    (is.filterMap Instruction.label?).count l = is.count (.label l) := by
  induction is with
  | nil => rfl
  | cons i is ih =>
    cases i with
    | label l' =>
      have hlabel : (Instruction.label l').label? = some l' := rfl
      rw [List.filterMap_cons_some hlabel, List.count_cons, List.count_cons, ih]
      simp
    | _ =>
      rw [List.count_cons_of_ne (by simp), ← ih]
      rfl

/-- The labels numbered from one to `n`. -/
def labelsUpTo (n : Nat) : List Label := (List.range' 1 n).map Label.mk

theorem nodup_labelsUpTo (n : Nat) : (labelsUpTo n).Nodup :=
  List.Nodup.map (fun _ _ h => congrArg Label.index h) List.nodup_range'

theorem mem_labelsUpTo {n : Nat} {l : Label} : l ∈ labelsUpTo n ↔ 0 < l.index ∧ l.index ≤ n := by
  rw [labelsUpTo, List.mem_map]
  constructor
  · rintro ⟨k, hk, rfl⟩
    obtain ⟨hpos, hlt⟩ := List.mem_range'_1.mp hk
    rw [Nat.add_comm] at hlt
    exact ⟨hpos, Nat.le_of_lt_succ hlt⟩
  · rintro ⟨hpos, hle⟩
    exact ⟨l.index, List.mem_range'_1.mpr ⟨hpos, by omega⟩, rfl⟩

/-- Instructions that use each number once have these labels and no others. -/
theorem perm_labels {is : List Instruction} {n : Nat} (h : Numbered 0 is n) :
    (is.filterMap Instruction.label?).Perm (labelsUpTo n) := by
  refine List.perm_iff_count.mpr fun l => ?_
  rw [count_filterMap_label?, h.2 l, (nodup_labelsUpTo n).count]
  exact if_congr mem_labelsUpTo.symm rfl rfl

/-- **Main result.** Whatever the tree and the table, the labels of the lowered program are the first `n`, each of them
once, and every jump goes to one of them. Functions are well nested. They begin in the order in which the tree declares
them, each declaration once, and as many of them end. -/
theorem lowered_programs_are_closed (table : SymbolTable) (body : List Statement) :
    ∃ n, ((lower table body).filterMap Instruction.label?).Perm (labelsUpTo n) ∧
      (∀ i ∈ lower table body, ∀ l, i.target? = some l → l ∈ labelsUpTo n) ∧ WellNested 0 (lower table body) ∧
      (lower table body).filterMap Instruction.begun? = (bodyFunctions false body).map Declared.name ∧
      (lower table body).count .functionEnd = (bodyFunctions false body).length := by
  obtain ⟨o, ho, hinstructions, hfunctions⟩ := outlined_lower table body
  have hlabels := perm_labels (numbered_body table none body 0)
  refine ⟨_, hlabels, fun i hi l hl => ?_, wellNested_iff.mpr ⟨o, ho, hinstructions⟩,
    filterMap_begun_lower table body, ?_⟩
  · rcases closed_body table none body 0 i hi l hl with hexit | hmem
    · exact absurd hexit List.not_mem_nil
    · exact hlabels.subset (List.mem_filterMap.mpr ⟨_, hmem, rfl⟩)
  · rw [← hinstructions, count_functionEnd ho, hfunctions.length_eq]

end Dotlang
