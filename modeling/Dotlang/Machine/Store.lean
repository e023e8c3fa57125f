import Dotlang.Machine.Literal

/-!
# Variables

A store gives names their values; a name that was never set has none. `resolve` is the value of an operand:
a literal's own, a variable's, or zero.
-/

namespace Dotlang

structure Store where
  bindings : List (String × Value)
  deriving DecidableEq

namespace Store

def empty : Store := ⟨[]⟩

def get? (s : Store) (name : String) : Option Value := s.bindings.lookup name

/-- Replaces the first binding of a name, or adds one at the end. -/
def update (name : String) (v : Value) : List (String × Value) → List (String × Value)
  | [] => [(name, v)]
  | (n, w) :: rest => if name = n then (n, v) :: rest else (n, w) :: update name v rest

def set (s : Store) (name : String) (v : Value) : Store := ⟨update name v s.bindings⟩

/-- The value of a variable, zero if it was never set. -/
def get (s : Store) (name : String) : Value := (s.get? name).getD default

/-- The value of an operand, which may end in a comma: its own if it is spelled as a literal, else that of
the variable. -/
def resolve (s : Store) (operand : String) : Value :=
  let word := Text.withoutComma operand
  (Value.literal? word).getD (s.get word)

theorem get?_set (s : Store) (name other : String) (v : Value) :
    (s.set name v).get? other = if other = name then some v else s.get? other := by
  obtain ⟨bs⟩ := s
  simp only [set, get?]
  induction bs with
  | nil => simp only [update, List.lookup_cons, List.lookup_nil]; split <;> simp_all
  | cons b bs ih =>
    obtain ⟨n, w⟩ := b
    by_cases hn : name = n
    · subst hn
      simp only [update, if_true, List.lookup_cons]
      split <;> simp_all
    · simp only [update, hn, if_false, List.lookup_cons]
      split
      · simp_all [Ne.symm hn]
      · exact ih

end Store

end Dotlang
