import Dotlang.Proofs.Hoisting

/-!
# Where jumps go

Labels of lowering and names of functions share one name space in the assembly, in which the last line of a name wins.

* `count_bears` : a label's name is borne by the label and by the functions called so;
* `count_label_lower` : if no function is called like a label, its name stands on one line of the assembly;
* `lineOf?_of_jump` : a jump then goes to the line of the label that lowering made for it;
* `shadowing_takes_the_jump` : a function called like a label takes the jumps to it.
-/

namespace Dotlang

open Assembly (Line lines assemble)
open Machine (Program)

/-! ## Labels of a program -/

/-- The name of a label is borne by the label itself and by the functions that are called so. -/
theorem count_bears (is : List Instruction) (l : Label) :
    (is.filterMap Instruction.bears?).count l.name =
      is.count (.label l) + (is.filterMap Instruction.begun?).count l.name := by
  induction is with
  | nil => rfl
  | cons i is ih =>
    cases i with
    | label l' =>
      have hname : l'.name = l.name ↔ l' = l := Label.name_injective.eq_iff
      simp only [List.filterMap_cons, Instruction.bears?, Instruction.begun?, List.count_cons, beq_iff_eq, hname,
        Instruction.label.injEq]
      omega
    | _ =>
      simp only [List.filterMap_cons, Instruction.bears?, Instruction.begun?, List.count_cons, beq_iff_eq, reduceCtorEq,
        if_false]
      omega

/-- If no function is called like a label, its name stands on one line of the assembly. -/
theorem count_label_lower {table : SymbolTable} {body : List Statement} {l : Label} (hl : .label l ∈ lower table body)
    (hfunctions : ∀ d ∈ bodyFunctions false body, d.name ≠ l.name) :
    (assemble (lower table body)).count (.label l.name) = 1 := by
  have hbegun : ((lower table body).filterMap Instruction.begun?).count l.name = 0 := by
    rw [filterMap_begun_lower]
    refine List.count_eq_zero.mpr fun hmem => ?_
    obtain ⟨d, hd, hname⟩ := List.mem_map.mp hmem
    exact hfunctions d hd hname
  have honce := count_label_eq_one hl
  have hbears := count_bears (lower table body) l
  obtain ⟨o, ho, hlower, -⟩ := outlined_lower table body
  rw [← hlower] at hbegun honce hbears ⊢
  rw [count_label_assemble ho, hbears, honce, hbegun]

/-! ## Jumps -/

/-- A jump comes from an instruction that jumps to its label. -/
theorem Assembly.target?_of_jump_mem_lines {i : Instruction} {n : Nat} {line : Line} {name : String}
    (h : line ∈ ((lines i).run n).1) (hjump : line = .jump name ∨ ∃ r, line = .jumpIf r name) :
    ∃ l : Label, i.target? = some l ∧ l.name = name := by
  rcases isStraight_or_leadsAway h with hstraight | haway
  · obtain rfl | ⟨r, rfl⟩ := hjump <;> cases hstraight
  · obtain rfl | ⟨r, rfl⟩ := hjump
    · cases haway with
      | jump l => exact ⟨l, rfl, rfl⟩
    · cases haway with
      | jumpIf cond r l => exact ⟨l, rfl, rfl⟩

theorem Machine.eq_of_label {ls : List Line} {name : String} {j k : Nat} (hj : ls[j]? = some (.label name))
    (hk : ls[k]? = some (.label name)) (honce : ls.count (.label name) ≤ 1) : j = k := by
  have hline := lineOf?_of_label hj honce
  rw [lineOf?_of_label hk honce] at hline
  exact (Option.some.inj hline).symm

/-- **A jump goes to the label that lowering made for it, unless a function is called like that label.** The machine
finds the name of the label on the one line on which it stands. -/
theorem lineOf?_of_jump (source : String) {k : Nat} {line : Line} {name : String}
    (hline : (Program.ofText (analyze source).code.assembly).lines[k]? = some (.ok line))
    (hjump : line = .jump name ∨ ∃ r, line = .jumpIf r name)
    (hfunctions : ∀ d ∈ bodyFunctions false (analyze source).body, d.name ≠ name) :
    ∃ l : Label, l.name = name ∧
      (∃ i ∈ lower (analyze source).symbols (analyze source).body, i.target? = some l ∧
        ∃ n, line ∈ ((lines i).run n).1) ∧
      .label l ∈ lower (analyze source).symbols (analyze source).body ∧
      ∃ j, (Program.ofText (analyze source).code.assembly).lineOf? name = some j ∧
        ∀ j', (Program.ofText (analyze source).code.assembly).lines[j']? = some (.ok (.label name)) ↔ j' = j := by
  rw [ofText_analyze] at hline ⊢
  rw [Machine.lines_ofLines] at hline
  have hloaded := Analysis.loaded_eq_lines hline (by obtain rfl | ⟨r, rfl⟩ := hjump <;> simp)
  rw [hloaded] at hline ⊢
  obtain ⟨i, hi, n, hlines⟩ : ∃ i ∈ lower (analyze source).symbols (analyze source).body, ∃ n,
      line ∈ ((lines i).run n).1 := by
    obtain rfl | ⟨f, -, rfl⟩ | hlines := Assembly.mem_assemble (List.mem_of_getElem? hline)
    · obtain hret | ⟨r, hret⟩ := hjump <;> cases hret
    · obtain hlabel | ⟨r, hlabel⟩ := hjump <;> cases hlabel
    · exact hlines
  obtain ⟨l, htarget, rfl⟩ := Assembly.target?_of_jump_mem_lines hlines hjump
  have hlabel : .label l ∈ lower (analyze source).symbols (analyze source).body :=
    (closed_body (analyze source).symbols none (analyze source).body 0 i hi l htarget).resolve_left List.not_mem_nil
  have honce : (analyze source).lines.count (.label l.name) = 1 := count_label_lower hlabel hfunctions
  obtain ⟨j, hj⟩ := List.mem_iff_getElem?.mp (List.count_pos_iff.mp (honce.symm ▸ Nat.one_pos))
  refine ⟨l, rfl, ⟨i, hi, htarget, n, hlines⟩, hlabel, j, Machine.lineOf?_of_label hj honce.le, fun j' => ?_⟩
  rw [Machine.lines_ofLines]
  constructor
  · exact fun hj' => Machine.eq_of_label hj' hj honce.le
  · rintro rfl
    exact hj

/-- Two labels are made, and the function is called like neither. -/
def unshadowed : String := "Ex L3() \x7b oye (1) \x7b printO(1); \x7d \x7d L3(); printO(2);"

theorem lineOf?_of_jump_in_unshadowed :
    (Program.ofText (analyze unshadowed).code.assembly).lines[7]? = some (.ok (.jump "L1")) ∧
      (∀ d ∈ bodyFunctions false (analyze unshadowed).body, d.name ≠ "L1") ∧
      (Program.ofText (analyze unshadowed).code.assembly).lineOf? "L1" = some 9 := by
  have hline : (Program.ofText (analyze unshadowed).code.assembly).lines[7]? = some (.ok (.jump "L1")) := by
    decide +kernel
  have hlabel : (Program.ofText (analyze unshadowed).code.assembly).lines[9]? = some (.ok (.label "L1")) := by
    decide +kernel
  have hfunctions : ∀ d ∈ bodyFunctions false (analyze unshadowed).body, d.name ≠ "L1" := by decide +kernel
  obtain ⟨-, -, -, -, j, hj, honly⟩ := lineOf?_of_jump unshadowed hline (Or.inl rfl) hfunctions
  exact ⟨hline, hfunctions, (honly 9).mp hlabel ▸ hj⟩

/-- The function is called like the label behind the conditional. -/
def shadowing : String := "Ex L1() \x7b printO(9); \x7d oye (1) \x7b printO(1); \x7d printO(2);"

/-- **A function that is called like a label takes the jumps to it.** The label behind the conditional is line 5, and
the jump on line 3 was made for it. It goes to line 8, where the function begins. -/
theorem shadowing_takes_the_jump :
    (analyze shadowing).diagnostics = [] ∧
      (analyze shadowing).lines = [.compare "1" "0", .jumpIf .eq "L2", .call "printO" ["1"], .jump "L1", .label "L2",
        .label "L1", .call "printO" ["2"], .ret] ++ Assembly.sectionOf "L1" [.call "printO" ["9"]] ∧
      (Program.ofText (analyze shadowing).code.assembly).lineOf? "L1" = some 8 ∧
      ((Machine.run (analyze shadowing).code.assembly 100).replay []).events = [.print "1", .print "9"] := by
  decide +kernel

end Dotlang
