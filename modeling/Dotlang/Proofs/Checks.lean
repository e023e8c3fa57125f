import Dotlang.Proofs.Handover
import Dotlang.Proofs.Words

/-!
# What a checked source guarantees

The checks look at tokens and their neighbours. What is said here about the chains of a tree follows from
where they stand in the tokens.

* `AssignedIn.checked` : a name has the type of the first operand assigned to it;
* `SteppedIn.checked`, `Chain.ReadIn.numeric_of_mem`, `Chain.ReadIn.numeric_first` : the operands beside an
  arithmetic operator are numbers.
-/

namespace Dotlang

/-! ## Neighbours -/

namespace Typing

variable {check : Option Token → Token → Option Token → Option Diagnostic}

theorem check_of_scan (before : Option Token) {ts : List Token} (h : scan check before ts = []) {a t b : Token}
    (hin : [a, t, b] <:+: before.toList ++ ts) : check (some a) t (some b) = none := by
  induction ts generalizing before with
  | nil =>
    have hlength := hin.length_le
    cases before <;> simp at hlength
  | cons u ts ih =>
    rw [scan, List.append_eq_nil_iff] at h
    obtain ⟨hu, hts⟩ := h
    cases before with
    | none => exact ih _ hts hin
    | some v =>
      have hin : [a, t, b] <:+: v :: u :: ts := hin
      rcases List.infix_cons_iff.mp hin with ⟨rest, hrest⟩ | hin
      · simp only [List.cons_append, List.nil_append, List.cons.injEq] at hrest
        obtain ⟨rfl, rfl, rfl⟩ := hrest
        exact Option.toList_eq_nil_iff.mp hu
      · exact ih _ hts hin

end Typing

section Checked

variable {tokens : List Token} {table : SymbolTable} (hcheck : Typing.check table tokens = [])
include hcheck

theorem contains_of_identifierIn {name : String} (h : IdentifierIn tokens name) : table.contains name = true := by
  obtain ⟨t, ht, hkind, rfl⟩ := h
  simp only [Typing.check, List.append_eq_nil_iff] at hcheck
  have hnone := List.filter_eq_nil_iff.mp (List.map_eq_nil_iff.mp hcheck.1.1) t ht
  simpa [hkind] using hnone

theorem assignment_checked {a t b : Token} (hin : [a, t, b] <:+: tokens) (ht : t.kind = .assign)
    (ha : a.kind = .identifier) : ValueType.ofName? table a.lexeme = some (ValueType.ofLexeme table b.lexeme) := by
  have hdeclared := contains_of_identifierIn hcheck ⟨a, hin.subset (by simp), ha, rfl⟩
  simp only [Typing.check, List.append_eq_nil_iff] at hcheck
  have hnone := Typing.check_of_scan none hcheck.1.2 hin
  obtain ⟨s, hs⟩ := Option.isSome_iff_exists.mp hdeclared
  cases htarget : ValueType.ofName? table a.lexeme with
  | none => simp [ValueType.ofName?, hs] at htarget
  | some target =>
    simp only [Typing.assignment?, htarget, ht, ValueType.ofToken?, Option.map_some, Option.getD_some,
      Option.bind_eq_bind, Option.bind_some, true_and, ite_eq_right_iff, reduceCtorEq, imp_false,
      ne_eq, not_not] at hnone
    rw [hnone]

theorem operands_checked {a t b : Token} (hin : [a, t, b] <:+: tokens) (ht : t.kind = .operator) {op : Arith}
    (hop : Operator.ofLexeme? t.lexeme = some (.arith op)) :
    (ValueType.ofLexeme table a.lexeme).isNumeric = true ∧ (ValueType.ofLexeme table b.lexeme).isNumeric = true := by
  simp only [Typing.check, List.append_eq_nil_iff] at hcheck
  have hnone := Typing.check_of_scan none hcheck.2 hin
  change (ValueType.ofToken? table (some a)).isNumeric = true ∧ (ValueType.ofToken? table (some b)).isNumeric = true
  simp only [Typing.operands?, ht, hop] at hnone
  rw [ite_eq_iff] at hnone
  obtain ⟨-, hnone⟩ | ⟨hnumeric, -⟩ := hnone
  · cases hnone
  · simpa using hnumeric

/-! ## Chains -/

variable (htokens : Scanned tokens)

theorem Chain.ReadIn.numeric_of_mem {c : Chain} (h : c.ReadIn tokens) {op : Arith} {o : Operand}
    (ho : (.arith op, o) ∈ c.rest) : (ValueType.ofLexeme table o.lexeme).isNumeric = true := by
  obtain ⟨ts, hts, hc⟩ := h
  cases ts with
  | nil => simp [Chain.read] at hc
  | cons t ts =>
    simp only [Chain.read] at hc
    split_ifs at hc
    cases hc
    obtain ⟨a, u, b, hin, hu, hop, -, rfl⟩ := Chain.exists_of_mem_readTerms ho t
    exact (operands_checked hcheck (hin.trans hts) hu hop).2

omit hcheck in
/-- The head of the terms of a chain stands right behind its first operand. -/
theorem Chain.first_of_read {ts : List Token} (hscanned : ∀ t ∈ ts, Lexer.WellFormed t) {c : Chain}
    (hc : (Chain.read ts).1 = some c) {op : Operator} {o : Operand} {rest : List (Operator × Operand)}
    (hrest : c.rest = (op, o) :: rest) :
    ∃ a t b, [a, t, b] <:+: ts ∧ t.kind = .operator ∧ Operator.ofLexeme? t.lexeme = some op ∧
      a.operand = c.first := by
  cases ts with
  | nil => simp [Chain.read] at hc
  | cons a ts =>
    simp only [Chain.read] at hc
    split_ifs at hc
    cases hc
    rcases ts with - | ⟨t, - | ⟨b, ts⟩⟩
    · simp [Chain.readTerms] at hrest
    · simp [Chain.readTerms] at hrest
    · simp only [Chain.readTerms] at hrest
      split_ifs at hrest with ht hb
      -- a scanned operator is one of the language, so no term is left out
      have hform := hscanned t (by simp)
      rw [Lexer.WellFormed, ht] at hform
      obtain ⟨op', hop'⟩ := hform
      have hlexeme : t.lexeme = op'.lexeme := String.toList_inj.mp hop'
      rw [hlexeme, Operator.ofLexeme?_lexeme] at hrest
      simp only [Option.toList_some, List.map_cons, List.map_nil, List.cons_append, List.cons.injEq,
        Prod.mk.injEq] at hrest
      refine ⟨a, t, b, ⟨[], ts, rfl⟩, ht, ?_, rfl⟩
      rw [hlexeme, Operator.ofLexeme?_lexeme, hrest.1.1]

include htokens in
theorem Chain.ReadIn.numeric_first {c : Chain} (h : c.ReadIn tokens) {op : Arith} {o : Operand}
    {rest : List (Operator × Operand)} (hrest : c.rest = (.arith op, o) :: rest) :
    (ValueType.ofLexeme table c.first.lexeme).isNumeric = true := by
  obtain ⟨ts, hts, hc⟩ := h
  obtain ⟨a, t, b, hin, ht, hop, hfirst⟩ := Chain.first_of_read (fun t ht => htokens t (hts.subset ht)) hc hrest
  rw [← hfirst]
  exact (operands_checked hcheck (hin.trans hts) ht hop).1

/-- A name has the type of the first operand that is assigned to it. -/
theorem AssignedIn.checked {name : String} {c : Chain} (h : AssignedIn tokens name c) :
    ValueType.ofName? table name = some (ValueType.ofLexeme table c.first.lexeme) := by
  obtain ⟨target, eq, ts, hin, hkind, rfl, heq, hc⟩ := h
  cases ts with
  | nil => simp [Chain.read] at hc
  | cons t ts =>
    simp only [Chain.read] at hc
    split_ifs at hc
    cases hc
    have hfront : [target, eq, t] <:+: target :: eq :: t :: ts := ⟨[], ts, rfl⟩
    exact assignment_checked hcheck (hfront.trans hin) heq hkind

end Checked

end Dotlang
