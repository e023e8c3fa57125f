import Dotlang.Proofs.Occurrences
import Dotlang.SymbolTable.Registration

/-!
# What a table says about names in the source

* `Symbol.ReadIn tokens` : the name of a symbol and its parameters are identifiers in `tokens`;
* `readIn_of_get?` : so it is for every symbol of the table of `tokens`, the built-in ones apart.
-/

namespace Dotlang

variable {tokens : List Token}

theorem identifierIn_of_mem_parameterNames {ts : List Token} {name : String} (h : name ∈ parameterNames ts) :
    IdentifierIn ts name := by
  induction ts with
  | nil => simp [parameterNames] at h
  | cons type ts ih =>
    cases ts with
    | nil => simp [parameterNames] at h
    | cons t ts =>
      rw [parameterNames, List.mem_append] at h
      rcases h with h | h
      · split_ifs at h with hkinds
        · exact ⟨t, by simp, hkinds.2, (List.mem_singleton.mp h).symm⟩
        · simp at h
      · exact (ih h).mono (List.suffix_cons type _).isInfix

theorem firstParens_isInfix (ts : List Token) : firstParens ts <:+: ts :=
  (List.takeWhile_prefix _).isInfix.trans ((List.drop_suffix _ _).trans (List.dropWhile_suffix _)).isInfix

/-! ## Registered symbols -/

/-- The parameters that a meaning has. -/
def Meaning.params : Meaning → List String
  | .function params => params
  | .variable .. => []

/-- The names in a symbol are identifiers of the source. -/
def Symbol.ReadIn (tokens : List Token) (s : Symbol) : Prop :=
  IdentifierIn tokens s.name ∧ ∀ p ∈ s.meaning.params, IdentifierIn tokens p

theorem Symbol.ReadIn.mono {ts : List Token} {s : Symbol} (h : s.ReadIn ts) (hts : ts <:+: tokens) :
    s.ReadIn tokens := ⟨h.1.mono hts, fun p hp => (h.2 p hp).mono hts⟩

theorem readIn_of_keywordSymbol? {k : Option Keyword} {ts : List Token} {s : Symbol}
    (h : keywordSymbol? k ts = some s) : s.ReadIn ts := by
  unfold keywordSymbol? at h
  split at h
  · unfold loopVariable? at h
    split at h
    · rename_i paren type name eq value rest
      split_ifs at h with hkinds
      cases h
      exact ⟨⟨name, by simp, hkinds.2.2.1, rfl⟩, fun p hp => absurd hp List.not_mem_nil⟩
    · simp at h
  · unfold declaredFunction? at h
    split at h
    · rename_i name ts
      split_ifs at h with hkind
      cases h
      refine ⟨⟨name, List.mem_cons_self, hkind, rfl⟩, fun p hp => ?_⟩
      refine (identifierIn_of_mem_parameterNames hp).mono ((firstParens_isInfix ts).trans ?_)
      exact (List.suffix_cons name ts).isInfix
    · simp at h
  · unfold inputVariable? at h
    split at h
    · rename_i paren message comma type name rest
      split_ifs at h with hkinds
      cases h
      exact ⟨⟨name, by simp, hkinds.2.2.2.2, rfl⟩, fun p hp => absurd hp List.not_mem_nil⟩
    · simp at h
  · simp at h

theorem readIn_of_mem_registrations {ts : List Token} {pending : Option (Option DataType)} {s : Symbol}
    (h : s ∈ registrations pending ts) : s.ReadIn ts := by
  induction ts generalizing pending with
  | nil => simp [registrations] at h
  | cons t ts ih =>
    have hts : ts <:+: t :: ts := (List.suffix_cons t ts).isInfix
    unfold registrations at h
    split at h
    · exact (ih h).mono hts
    · rename_i hkind
      rcases List.mem_append.mp h with h | h
      · obtain ⟨type, -, rfl⟩ := Option.map_eq_some_iff.mp (Option.mem_toList.mp h)
        exact ⟨⟨t, List.mem_cons_self, hkind, rfl⟩, fun p hp => absurd hp List.not_mem_nil⟩
      · exact (ih h).mono hts
    · rcases List.mem_append.mp h with h | h
      · exact (readIn_of_keywordSymbol? (Option.mem_toList.mp h)).mono hts
      · exact (ih h).mono hts

/-! ## Tables -/

namespace SymbolTable

theorem mem_insert {table : SymbolTable} {s x : Symbol} (h : x ∈ (table.insert s).entries) :
    x ∈ table.entries ∨ x = s := by
  unfold insert at h
  split at h
  · exact Or.inl h
  · exact (List.mem_append.mp h).imp_right List.mem_singleton.mp

theorem mem_insertAll (table : SymbolTable) {ss : List Symbol} {x : Symbol} (h : x ∈ (table.insertAll ss).entries) :
    x ∈ table.entries ∨ x ∈ ss := by
  induction ss generalizing table with
  | nil => exact Or.inl h
  | cons s ss ih =>
    rcases ih (table.insert s) h with h | h
    · rcases mem_insert h with h | rfl
      · exact Or.inl h
      · exact Or.inr List.mem_cons_self
    · exact Or.inr (List.mem_cons_of_mem _ h)

theorem name_of_get? {table : SymbolTable} {name : String} {s : Symbol} (h : table.get? name = some s) :
    s.name = name := by
  simpa using List.find?_some h

end SymbolTable

/-- A symbol in the table of a source is built in or has its names there. -/
theorem readIn_of_get? {builtins : List String} {name : String} {s : Symbol}
    (h : (SymbolTable.ofTokens tokens builtins).get? name = some s) :
    s.ReadIn tokens ∨ ∃ b ∈ builtins, s = .ofBuiltin b := by
  rcases SymbolTable.mem_insertAll _ (List.mem_of_find?_eq_some h) with hmem | hmem
  · exact absurd hmem List.not_mem_nil
  · rcases List.mem_append.mp hmem with hmem | hmem
    · exact Or.inl (readIn_of_mem_registrations hmem)
    · obtain ⟨b, hb, rfl⟩ := List.mem_map.mp hmem
      exact Or.inr ⟨b, hb, rfl⟩

theorem identifierIn_of_mem_params {builtins : List String} {function name : String}
    (h : name ∈ (SymbolTable.ofTokens tokens builtins).params function) : IdentifierIn tokens name := by
  unfold SymbolTable.params at h
  split at h
  · rename_i hget
    rcases readIn_of_get? hget with hread | ⟨b, -, hb⟩
    · exact hread.2 name h
    · cases hb
      exact absurd h List.not_mem_nil
  · exact absurd h List.not_mem_nil

end Dotlang
