import Dotlang.Token

/-!
# Symbol tables

A symbol is a name with what it stands for and the line that introduced it. A table holds at most one
symbol per name, in order of registration: `insert` leaves a name that is taken as it is.
-/

namespace Dotlang

/-- What a name stands for. -/
inductive Meaning where
  | variable (type : Option DataType) (initializer : Option String)
  | function (params : List String)
  deriving DecidableEq, Repr

structure Symbol where
  name : String
  meaning : Meaning
  line : Option Nat
  deriving DecidableEq, Repr

structure SymbolTable where
  entries : List Symbol
  deriving DecidableEq, Repr

namespace SymbolTable

def empty : SymbolTable := ⟨[]⟩

def get? (t : SymbolTable) (name : String) : Option Symbol := t.entries.find? fun s => s.name == name

def contains (t : SymbolTable) (name : String) : Bool := (t.get? name).isSome

/-- The first symbol of a name stays. -/
def insert (t : SymbolTable) (s : Symbol) : SymbolTable :=
  if t.contains s.name then t else ⟨t.entries ++ [s]⟩

/-- Registers symbols in order. -/
def insertAll (t : SymbolTable) (ss : List Symbol) : SymbolTable := ss.foldl insert t

/-- The parameters of a declared function; any other name has none. -/
def params (t : SymbolTable) (name : String) : List String :=
  match t.get? name with
  | some ⟨_, .function ps, _⟩ => ps
  | _ => []

theorem get?_insert_self (t : SymbolTable) (s : Symbol) :
    (t.insert s).get? s.name = some ((t.get? s.name).getD s) := by
  unfold insert contains
  cases h : t.get? s.name with
  | some x => simp [h]
  | none => simp only [get?] at h ⊢; simp [List.find?_append, h]

theorem get?_insert_of_ne (t : SymbolTable) {s : Symbol} {name : String} (h : s.name ≠ name) :
    (t.insert s).get? name = t.get? name := by
  unfold insert
  split
  · rfl
  · simp [get?, List.find?_append, h]

end SymbolTable

end Dotlang
