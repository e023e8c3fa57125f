import Dotlang.Proofs.Declarations
import Dotlang.Proofs.Introductions

/-!
# Every name that a tree declares has an entry

* `declaredNames` : the names that the statements of a tree introduce, at any depth;
* `registered_of_waiting` : the identifier that a data type waits for is registered, whatever waits before it;
* `entry_of_registered` : the first symbol registered under a name is its entry in the table;
* `declared_has_entry` : so every name that a tree declares has an entry that comes from the source.
-/

namespace Dotlang

/-! ## Names that a tree declares -/

/-- The names that a statement introduces, the statements inside it apart. -/
def Statement.declaredNames : Statement → List String
  | .declare _ d => [d.name]
  | .counting _ init _ _ _ => (init.map Declaration.name).toList
  | .function _ name params _ => (if name = "" then [] else [name]) ++ params
  | _ => []

def declaredNames (body : List Statement) : List String := (bodyNodes body).flatMap Statement.declaredNames

/-- A name is declared behind a data type, or it is that of a function. -/
theorem Statement.introduced_or_heading {s : Statement} {name : String} (h : name ∈ s.declaredNames) :
    some name ∈ s.introductions ∨ ∃ params, s.heading? = some (name, params) := by
  cases s with
  | declare pos d => exact Or.inl (List.mem_singleton.mpr (congrArg some (List.mem_singleton.mp h)))
  | counting pos init cond step body =>
    cases init with
    | none => exact absurd h List.not_mem_nil
    | some d => exact Or.inl (List.mem_singleton.mpr (congrArg some (List.mem_singleton.mp h)))
  | function pos f params body =>
    rcases List.mem_append.mp h with hname | hparam
    · right
      by_cases hf : f = ""
      · rw [if_pos hf] at hname
        exact absurd hname List.not_mem_nil
      · rw [if_neg hf] at hname
        rw [List.mem_singleton.mp hname]
        exact ⟨params, if_neg hf⟩
    · exact Or.inl (List.mem_map_of_mem hparam)
  | _ => exact absurd h List.not_mem_nil

theorem introduced_or_heading {body : List Statement} {name : String} (h : name ∈ declaredNames body) :
    some name ∈ introductions body ∨ ∃ params, (name, params) ∈ headings body := by
  obtain ⟨s, hs, hname⟩ := List.mem_flatMap.mp h
  rcases Statement.introduced_or_heading hname with hintro | ⟨params, hheading⟩
  · exact Or.inl (List.mem_flatMap.mpr ⟨s, hs, hintro⟩)
  · exact Or.inr ⟨params, List.mem_filterMap.mpr ⟨s, hs, hheading⟩⟩

/-! ## Names that are registered -/

/-- A name found is one of those that were expected. -/
theorem Covered.some_mem {xs ys : List (Option String)} (h : Covered xs ys) {name : String} (hname : some name ∈ xs) :
    some name ∈ ys := by
  obtain ⟨zs, hall, hsub⟩ := List.sublistForall₂_iff.mp h
  apply hsub.subset
  clear h hsub
  induction hall with
  | nil => exact hname
  | @cons x z xs zs hagrees _ ih =>
    rcases List.mem_cons.mp hname with hx | hxs
    · rw [← hx] at hagrees
      have hz : z = some name := hagrees name rfl
      rw [hz]
      exact List.mem_cons_self
    · exact List.mem_cons_of_mem z (ih hxs)

/-- While a type waits, the next identifier is registered. -/
theorem registered_of_nextName? {ts : List Token} {name : String} (h : nextName? ts = some name)
    (type : Option DataType) : ∃ s ∈ registrations (some type) ts, s.name = name := by
  induction ts with
  | nil => cases h
  | cons t ts ih =>
    unfold nextName? at h
    unfold registrations
    split_ifs at h with hname htype
    · rw [hname]
      exact ⟨_, List.mem_append_left _ (List.mem_singleton.mpr rfl), Option.some.inj h⟩
    · obtain ⟨s, hs, hsname⟩ := ih h
      split
      · contradiction
      · contradiction
      · exact ⟨s, List.mem_append_right _ hs, hsname⟩

/-- The identifier that a data type waits for is registered. -/
theorem registered_of_waiting {ts : List Token} {name : String} (h : some name ∈ waiting ts)
    (pending : Option (Option DataType)) : ∃ s ∈ registrations pending ts, s.name = name := by
  induction ts generalizing pending with
  | nil => exact absurd h List.not_mem_nil
  | cons t ts ih =>
    by_cases htype : t.kind = .dataType
    · rw [waiting_dataType htype] at h
      unfold registrations
      rw [htype]
      rcases List.mem_cons.mp h with hnext | hlater
      · exact registered_of_nextName? hnext.symm t.dataType?
      · exact ih hlater (some t.dataType?)
    · rw [waiting, if_neg htype, List.nil_append] at h
      unfold registrations
      split
      · contradiction
      · obtain ⟨s, hs, hname⟩ := ih h none
        exact ⟨s, List.mem_append_right _ hs, hname⟩
      · obtain ⟨s, hs, hname⟩ := ih h pending
        exact ⟨s, List.mem_append_right _ hs, hname⟩

/-- A named function that a token list registers is among the symbols. -/
theorem registered_of_heading {ts : List Token} {name : String} {params : List String}
    (h : (name, params) ∈ registered ts) (pending : Option (Option DataType)) :
    ∃ s ∈ registrations pending ts, s.name = name := by
  rw [← filterMap_registrations ts pending] at h
  obtain ⟨s, hs, hheading⟩ := List.mem_filterMap.mp h
  exact ⟨s, hs, (Symbol.fst_of_heading? hheading).symm⟩

/-! ## Entries of the table -/

/-- A name that is registered has an entry, and the built-in functions do not take its place. -/
theorem entry_of_registered {tokens : List Token} {s : Symbol} (h : s ∈ registrations none tokens)
    (builtins : List String) :
    ∃ entry ∈ registrations none tokens, (SymbolTable.ofTokens tokens builtins).get? s.name = some entry := by
  have hsome : ((registrations none tokens).find? fun x => x.name == s.name).isSome :=
    List.find?_isSome.mpr ⟨s, h, beq_self_eq_true s.name⟩
  obtain ⟨entry, hentry⟩ := Option.isSome_iff_exists.mp hsome
  refine ⟨entry, List.mem_of_find?_eq_some hentry, ?_⟩
  rw [SymbolTable.ofTokens, SymbolTable.get?_insertAll, List.find?_append, hentry]
  rfl

/-- **If there is nothing wrong with its syntax, every name that a tree declares, at any depth, has an entry in the
table, and the entry comes from the source, whatever functions are built in.** -/
theorem declared_has_entry {tokens : List Token} (hclean : (parse tokens).diagnostics = []) (builtins : List String)
    {name : String} (hname : name ∈ declaredNames (parse tokens).body) :
    ∃ entry ∈ registrations none tokens, (SymbolTable.ofTokens tokens builtins).get? name = some entry := by
  have hregistered : ∃ s ∈ registrations none tokens, s.name = name := by
    rcases introduced_or_heading hname with hintro | ⟨params, hheading⟩
    · exact registered_of_waiting ((introductions_covered hclean).some_mem hintro) none
    · exact registered_of_heading ((headings_sublist_registered hclean).subset hheading) none
  obtain ⟨s, hs, rfl⟩ := hregistered
  exact entry_of_registered hs builtins

/-- A function in a loop in a conditional, other tokens among its parameters, and the end of the input in the header of
a loop. -/
def openHeader : String :=
  "oye (1) \x7b wish (1) \x7b Ex show(nmb a, 5 +. Sring b) \x7b printO(a); \x7d \x7d \x7d first (flat i =. 0"

theorem declared_has_entry_openHeader :
    (parse (tokenize openHeader)).diagnostics = [] ∧
      declaredNames (parse (tokenize openHeader)).body = ["show", "a", "b", "i"] ∧
      ∃ entry ∈ registrations none (tokenize openHeader),
        (SymbolTable.ofTokens (tokenize openHeader) builtinNames).get? "show" = some entry := by
  have hclean : (parse (tokenize openHeader)).diagnostics = [] := by decide +kernel
  have hnames : declaredNames (parse (tokenize openHeader)).body = ["show", "a", "b", "i"] := by decide +kernel
  refine ⟨hclean, hnames, declared_has_entry hclean builtinNames ?_⟩
  rw [hnames]
  decide

end Dotlang
