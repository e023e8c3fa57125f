import Dotlang.Proofs.Decoding
import Dotlang.Proofs.Execution

/-!
# Targets that are missing

Before a run starts, the program is checked for targets that no label bears. The check reads them out of the lines of
the text, and the run out of the decoded lines.

* `target?_of_decode` : both read the same, except that a call drops a comma at the end of its name;
* `unresolved_after_check` : what is written on a line that wants a label although the check has passed;
* `unresolved_before_start` : a run that ends for want of a label has not begun;
* `commaKept_prints_first` : unless a call is written with such a comma.
-/

namespace Dotlang

namespace Machine

open Text (withoutComma dropTrailing)
open Assembly (Line)

/-! ## One line -/

/-- The name that a line calls, as it is written. -/
def calledName? (line : List Char) : Option String :=
  match Opcode.ofMnemonic? (split line).1 with
  | some .call => (split line).2.head?
  | _ => none

theorem withoutComma_cases (w : String) : withoutComma w = w ∨ w = withoutComma w ++ "," := by
  unfold withoutComma dropTrailing
  split_ifs with hlast
  · right
    obtain ⟨cs, hcs⟩ := List.getLast?_eq_some_iff.mp hlast
    rw [hcs, List.dropLast_concat]
    apply String.toList_inj.mp
    rw [hcs, String.toList_append, String.toList_ofList]
    rfl
  · exact Or.inl String.ofList_toList

theorem withoutComma_comma (name : String) : withoutComma (name ++ ",") = name := by
  rw [withoutComma, String.toList_append]
  exact (congrArg String.ofList (Text.dropTrailing_append_singleton ',' name.toList)).trans String.ofList_toList

/-- No built-in name ends in a comma. -/
theorem isBuiltin_comma (name : String) : isBuiltin (name ++ ",") = false := by
  rw [Bool.eq_false_iff]
  intro h
  have hlast : (name ++ ",").toList.getLast? = some ',' := by simp
  have hbuiltin : name ++ "," ∈ printNames ∨ name ++ "," = promptName := by
    simpa [isBuiltin] using h
  have hmem : name ++ "," ∈ promptName :: printNames := List.mem_cons.mpr hbuiltin.symm
  have hnone : ∀ w ∈ promptName :: printNames, w.toList.getLast? ≠ some ',' := by decide
  exact hnone _ hmem hlast

/-- **The check and the run read one target out of a line,** except that a call drops a comma at the end of its name. -/
theorem target?_of_decode {line : List Char} {l : Line} {name : String} (h : decode line = .ok l)
    (hname : l.target? = some name) :
    target? line = some name ∨ target? line = some (name ++ ",") ∧ calledName? line = some (name ++ ",") := by
  unfold decode at h
  split_ifs at h
  · cases h
    cases hname
  · cases h
    cases hname
  · unfold target? calledName?
    simp only at h ⊢
    generalize split line = words at h ⊢
    obtain ⟨word, operands⟩ := words
    simp only at h ⊢
    cases hop : Opcode.ofMnemonic? word with
    | none =>
      rw [hop] at h
      cases h
    | some op =>
      rw [hop] at h
      simp only at h
      unfold ofOperands at h
      split at h <;> cases h
      case h_4 => exact Or.inl hname
      case h_5 => exact Or.inl hname
      case h_6 word args =>
        simp only [Line.target?, Option.ite_none_left_eq_some, Option.some.injEq, Bool.not_eq_true] at hname
        obtain ⟨hbuiltin, rfl⟩ := hname
        obtain hword | hword := withoutComma_cases word
        · rw [hword] at hbuiltin ⊢
          simp [hbuiltin]
        · rw [← hword]
          have hcomma := isBuiltin_comma (withoutComma word)
          rw [← hword] at hcomma
          simp [hcomma]
      all_goals cases hname

namespace Program

variable {p : Program}

/-- A line that faults for want of a label needs just that label. -/
theorem target?_of_unresolved {s : State} {l : Line} {name : String} (h : p.execute s l = .fault (.unresolvedLabel name)) :
    l.target? = some name ∧ p.lineOf? name = none := by
  have hjump : ∀ (t : State) (other : String), p.jump t other = .fault (.unresolvedLabel name) →
      other = name ∧ p.lineOf? name = none := by
    intro t other ht
    unfold jump at ht
    split at ht
    · cases ht
    · cases ht
      exact ⟨rfl, ‹_›⟩
  cases l with
  | jump label =>
    obtain ⟨rfl, hnone⟩ := hjump _ _ h
    exact ⟨rfl, hnone⟩
  | jumpIf relation label =>
    simp only [execute] at h
    split at h
    · obtain ⟨rfl, hnone⟩ := hjump _ _ h
      exact ⟨rfl, hnone⟩
    · cases h
  | call callee args =>
    simp only [execute] at h
    split_ifs at h with hprint hprompt
    obtain ⟨rfl, hnone⟩ := hjump _ _ h
    refine ⟨?_, hnone⟩
    have hbuiltin : isBuiltin callee = false := by
      rw [isBuiltin, Bool.or_eq_false_iff]
      exact ⟨Bool.eq_false_iff.mpr hprint, beq_eq_false_iff_ne.mpr hprompt⟩
    rw [Line.target?, if_neg (Bool.eq_false_iff.mp hbuiltin)]
  | arith op target source =>
    simp only [execute] at h
    split at h
    · cases h
    · rename_i hf
      cases h
      obtain hf | hf | ⟨t, hf, -⟩ := Value.fault_of_apply hf <;> cases hf
  | ret =>
    simp only [execute] at h
    split at h <;> cases h
  | _ => cases h

theorem isSome_of_unresolved? {text : String} (hcheck : (ofText text).unresolved? = none) {line : List Char}
    (hline : line ∈ textLines text) {name : String} (h : target? line = some name) :
    ((ofText text).lineOf? name).isSome = true := by
  have htarget : name ∈ (ofText text).targets := List.mem_filterMap.mpr ⟨line, hline, h⟩
  simpa [Option.isSome_iff_ne_none] using List.find?_eq_none.mp hcheck name htarget

/-- **If the check has passed, only a call whose name is written with a comma at its end can want a label.** The label
with the comma exists. -/
theorem unresolved_after_check {text : String} (hcheck : (ofText text).unresolved? = none) {s : State} {name : String}
    (h : (ofText text).step s = .fault (.unresolvedLabel name)) :
    ∃ line, (textLines text)[s.pc]? = some line ∧ calledName? line = some (name ++ ",") ∧
      ((ofText text).lineOf? (name ++ ",")).isSome = true ∧ (ofText text).lineOf? name = none := by
  obtain ⟨line, hline, hdecode | ⟨l, hdecode, hexecute⟩⟩ := fault_of_step h
  · obtain ⟨op, hf⟩ | hf := fault_of_decode hdecode <;> cases hf
  · obtain ⟨htarget, hnone⟩ := target?_of_unresolved hexecute
    have hmem := List.mem_of_getElem? hline
    obtain hsame | ⟨hcomma, hcalled⟩ := target?_of_decode hdecode htarget
    · have hsome := isSome_of_unresolved? hcheck hmem hsame
      rw [hnone] at hsome
      cases hsome
    · exact ⟨line, hline, hcalled, isSome_of_unresolved? hcheck hmem hcomma, hnone⟩

end Program

/-- **An unresolved label is found before anything runs,** if no call depends on a comma at the end of its name: where
the name as it is written is a label, it is one without the comma too. A run that ends for want of a label has not
begun, and once the check has passed no step wants one. -/
theorem unresolved_before_start {text : String}
    (hcalls : ∀ line ∈ textLines text, ∀ word ∈ calledName? line,
      ((Program.ofText text).lineOf? word).isSome = true →
        ((Program.ofText text).lineOf? (withoutComma word)).isSome = true) :
    (∀ budget replies name, ((run text budget).replay replies).result = .error (.unresolvedLabel name) →
      ((run text budget).replay replies).events = [] ∧ (Program.ofText text).unresolved? = some name) ∧
    ((Program.ofText text).unresolved? = none →
      ∀ s name, (Program.ofText text).step s ≠ .fault (.unresolvedLabel name)) := by
  have hnever : (Program.ofText text).unresolved? = none →
      ∀ s name, (Program.ofText text).step s ≠ .fault (.unresolvedLabel name) := by
    intro hcheck s name h
    obtain ⟨line, hline, hcalled, hsome, hnone⟩ := Program.unresolved_after_check hcheck h
    have hlabel := hcalls line (List.mem_of_getElem? hline) _ hcalled hsome
    rw [withoutComma_comma, hnone] at hlabel
    cases hlabel
  refine ⟨fun budget replies name hresult => ?_, hnever⟩
  unfold run at hresult ⊢
  cases hcheck : (Program.ofText text).unresolved? with
  | some other =>
    rw [Program.run, hcheck] at hresult ⊢
    cases hresult
    exact ⟨rfl, rfl⟩
  | none =>
    rw [Program.replay_run hcheck] at hresult
    obtain hf | ⟨n, b, -, hfault⟩ := Program.fault_of_rest hresult
    · cases hf
    · exact absurd hfault (hnever hcheck b.state name)

/-- The open string keeps the comma in the name of the second call. There is a label with it and one without. -/
def jumpMissing : String := "CALL printO, 1\nCALL \"x,\n\"x,:\n\"x:\nJMP nowhere"

theorem unresolved_before_start_of_jumpMissing :
    (∀ line ∈ textLines jumpMissing, ∀ word ∈ calledName? line,
      ((Program.ofText jumpMissing).lineOf? word).isSome = true →
        ((Program.ofText jumpMissing).lineOf? (withoutComma word)).isSome = true) ∧
      ((run jumpMissing 10).replay []).result = .error (.unresolvedLabel "nowhere") ∧
      ((run jumpMissing 10).replay []).events = [] := by
  have hcalls : ∀ line ∈ textLines jumpMissing, ∀ word ∈ calledName? line,
      ((Program.ofText jumpMissing).lineOf? word).isSome = true →
        ((Program.ofText jumpMissing).lineOf? (withoutComma word)).isSome = true := by
    decide +kernel
  have hresult : ((run jumpMissing 10).replay []).result = .error (.unresolvedLabel "nowhere") := by decide +kernel
  exact ⟨hcalls, hresult, ((unresolved_before_start hcalls).1 10 [] "nowhere" hresult).1⟩

/-- There is a label with the comma only. -/
def commaKept : String := "CALL printO, 1\nCALL \"x,\n\"x,:"

/-- **A call can want a label although the check has passed.** The check looks for the name with its comma, the call for
the name without it, and by then a line has been printed. -/
theorem commaKept_prints_first :
    (Program.ofText commaKept).unresolved? = none ∧
      ((run commaKept 10).replay []).events = [.print "1"] ∧
      ((run commaKept 10).replay []).result = .error (.unresolvedLabel "\"x") := by
  decide +kernel

end Machine

end Dotlang
