import Dotlang.Proofs.Words

/-!
# What an operand is

The lexer gives an operand its kind, the type checker its type and the machine its value, each by its own look at the
characters. Here type and value are said by the kind alone.

* `numeral` : the number that digits denote;
* `Token.operandType` : the type of an operand of a kind, in a table;
* `Token.StandsFor` : the value of an operand of a kind, in a store;
* `Token.StandsFor.unique` : there is at most one;
* `Token.operand_read_alike` : type checker and machine make of an operand what its kind says.
-/

namespace Dotlang

open Text (isDigits splitMinus)
open Lexer (Form IsNumber)

/-! ## Numerals -/

/-- The number that digits denote. -/
def numeral (ds : List Char) : Nat := Nat.ofDigits 10 (ds.reverse.map fun c => c.toNat - '0'.toNat)

theorem numeral_append (ds : List Char) (d : Char) :
    numeral (ds ++ [d]) = 10 * numeral ds + (d.toNat - '0'.toNat) := by
  unfold numeral
  rw [List.reverse_append, List.reverse_singleton, List.singleton_append, List.map_cons, Nat.ofDigits_cons]
  omega

/-- Digits are read from left to right. -/
theorem ofDigitChars_eq_numeral (ds : List Char) : Nat.ofDigitChars 10 ds 0 = numeral ds := by
  induction ds using List.reverseRecOn with
  | nil => rfl
  | append_singleton ds d ih =>
    rw [numeral_append, ← ih]
    simp [Nat.ofDigitChars, List.foldl_append]

theorem signed_eq_numeral (ds : List Char) : Value.signed false ds = (numeral ds : Int) := by
  rw [← ofDigitChars_eq_numeral]
  rfl

/-- A number that fits in a word is one. -/
theorem ofInt?_numeral {ds : List Char} (h : numeral ds ≤ 9223372036854775807) :
    ∃ n : Int64, Word.ofInt? (Value.signed false ds) = some n ∧ n.toInt = numeral ds := by
  refine ⟨Int64.ofInt (numeral ds), ?_, ?_⟩
  · rw [signed_eq_numeral, Word.ofInt?, if_pos]
    unfold Word.least Word.greatest
    omega
  · apply Int64.toInt_ofInt_of_le
    · omega
    · omega

theorem ofInt?_numeral_eq_none {ds : List Char} (h : 9223372036854775807 < numeral ds) :
    Word.ofInt? (Value.signed false ds) = none := by
  rw [signed_eq_numeral, Word.ofInt?, if_neg]
  unfold Word.greatest
  omega

/-! ## Types and values of kinds -/

/-- What a table says of a name. -/
def SymbolTable.typeOf (table : SymbolTable) (name : String) : ValueType :=
  match table.get? name with
  | some ⟨_, .function _, _⟩ => .function
  | some ⟨_, .variable (some type) _, _⟩ => .data type
  | _ => .unknown

namespace Token

/-- The type of an operand. -/
def operandType (table : SymbolTable) (t : Token) : ValueType :=
  match t.kind with
  | .number => if '.' ∈ t.lexeme.toList then .data .decimal else .data .integer
  | .string => .data .text
  | .boolean => .data .boolean
  | _ => table.typeOf t.lexeme

/-- The value of an operand. A whole number is a decimal only if no word holds it. -/
def StandsFor (s : Store) (t : Token) (v : Value) : Prop :=
  match t.kind with
  | .number =>
    if '.' ∈ t.lexeme.toList ∨ 9223372036854775807 < numeral t.lexeme.toList then
      ∃ x, Decimal.read? t.lexeme.toList = some x ∧ v = .float x
    else ∃ n : Int64, n.toInt = numeral t.lexeme.toList ∧ v = .int n
  | .string => ∃ text, t.lexeme.toList = '"' :: (text ++ ['"']) ∧ v = .str (String.ofList text)
  | .boolean => ∃ b : Bool, t.lexeme = toString b ∧ v = .bool b
  | _ => v = (s.get? t.lexeme).getD (.int 0)

/-- An operand has one value. -/
theorem StandsFor.unique {s : Store} {t : Token} {v w : Value} (hv : t.StandsFor s v) (hw : t.StandsFor s w) :
    v = w := by
  unfold StandsFor at hv hw
  cases hkind : t.kind with
  | number =>
    rw [hkind] at hv hw
    dsimp only at hv hw
    split_ifs at hv hw
    · obtain ⟨x, hx, rfl⟩ := hv
      obtain ⟨y, hy, rfl⟩ := hw
      rw [Option.some.inj (hx.symm.trans hy)]
    · obtain ⟨n, hn, rfl⟩ := hv
      obtain ⟨m, hm, rfl⟩ := hw
      rw [Int64.toInt_inj.mp (hn.trans hm.symm)]
  | string =>
    rw [hkind] at hv hw
    obtain ⟨text, htext, rfl⟩ := hv
    obtain ⟨other, hother, rfl⟩ := hw
    have hquoted := htext.symm.trans hother
    rw [List.append_cancel_right (List.cons.inj hquoted).2]
  | boolean =>
    rw [hkind] at hv hw
    obtain ⟨a, ha, rfl⟩ := hv
    obtain ⟨b, hb, rfl⟩ := hw
    have hsame : toString a = toString b := ha.symm.trans hb
    revert hsame
    cases a <;> cases b <;> decide
  | _ =>
    rw [hkind] at hv hw
    exact hv.trans hw.symm

end Token

/-! ## Words of the kinds -/

section Words

variable {w : String}

/-- A number without a point is digits. -/
theorem isDigits_of_isNumber {cs : List Char} (h : IsNumber cs) (hpoint : '.' ∉ cs) : isDigits cs = true := by
  rcases h with h | ⟨whole, fraction, -, -, rfl⟩
  · exact h
  · exact absurd (List.mem_append_right whole List.mem_cons_self) hpoint

theorem not_mem_point_of_isDigits {cs : List Char} (h : isDigits cs = true) : '.' ∉ cs := by
  obtain ⟨-, -, -, -, hall⟩ := isDigits_cons h
  intro hpoint
  exact absurd (hall '.' hpoint) (by decide)

theorem exists_point_of_isNumber {cs : List Char} (h : IsNumber cs) (hpoint : '.' ∈ cs) :
    ∃ whole fraction, isDigits whole = true ∧ isDigits fraction = true ∧ cs = whole ++ '.' :: fraction := by
  rcases h with h | h
  · exact absurd hpoint (not_mem_point_of_isDigits h)
  · exact h

theorem ofLexeme_of_isDigits (table : SymbolTable) (h : isDigits w.toList = true) :
    ValueType.ofLexeme table w = .data .integer := by
  obtain ⟨c, cs, hw, hc, -⟩ := isDigits_cons h
  have hinteger : ValueType.isInteger w.toList = true := by
    rw [ValueType.isInteger, hw, splitMinus_of_isDigit hc, ← hw]
    exact h
  simp only [ValueType.ofLexeme, hinteger, if_true]

theorem ofLexeme_of_point (table : SymbolTable) {whole fraction : List Char} (hwhole : isDigits whole = true)
    (hfraction : isDigits fraction = true) (hw : w.toList = whole ++ '.' :: fraction) :
    ValueType.ofLexeme table w = .data .decimal := by
  obtain ⟨htake, hdrop⟩ := takeWhile_point hwhole fraction (· != '.')
    (fun c hc => by rw [bne_iff_ne]; rintro rfl; exact absurd hc (by decide)) (by decide)
  obtain ⟨-, -, -, -, hfractions⟩ := isDigits_cons hfraction
  have hsplit : splitMinus w.toList = (false, whole ++ '.' :: fraction) := by
    obtain ⟨c, cs, rfl, hc, -⟩ := isDigits_cons hwhole
    rw [hw]
    exact splitMinus_of_isDigit hc _
  have hinteger : ValueType.isInteger w.toList = false := by
    rw [ValueType.isInteger, hsplit]
    exact not_isDigits_append_point whole fraction
  have hdecimal : ValueType.isDecimal w.toList = true := by
    simp only [ValueType.isDecimal, hsplit, htake, hdrop, hwhole, Bool.true_and, Bool.and_eq_true, List.drop_one,
      List.tail_cons, List.all_eq_true]
    exact ⟨by simp, hfractions⟩
  simp only [ValueType.ofLexeme, hinteger, hdecimal, Bool.false_eq_true, if_false, if_true]

theorem ofLexeme_truth (table : SymbolTable) (b : Bool) :
    ValueType.ofLexeme table (toString b) = .data .boolean := by
  cases b <;> rfl

end Words

theorem SymbolTable.typeOf_eq (table : SymbolTable) (name : String) :
    table.typeOf name = (ValueType.ofName? table name).getD .unknown := by
  unfold typeOf ValueType.ofName?
  cases table.get? name with
  | none => rfl
  | some symbol =>
    obtain ⟨_, _ | _, _⟩ := symbol
    · rename_i type _
      cases type <;> rfl
    · rfl

/-! ## Operands of a source -/

namespace Token

variable {t : Token}

/-- The type checker sees the kind of an operand. -/
theorem ofLexeme_eq_operandType (table : SymbolTable) (hoperand : t.kind.isOperand = true)
    (hform : Form t.kind t.lexeme.toList) : ValueType.ofLexeme table t.lexeme = t.operandType table := by
  unfold operandType
  cases hkind : t.kind <;> rw [hkind] at hoperand hform <;>
    simp only [TokenKind.isOperand, Bool.false_eq_true] at hoperand
  case number =>
    show _ = if _ then _ else _
    split_ifs with hpoint
    · obtain ⟨whole, fraction, hwhole, hfraction, hw⟩ := exists_point_of_isNumber hform hpoint
      exact ofLexeme_of_point table hwhole hfraction hw
    · exact ofLexeme_of_isDigits table (isDigits_of_isNumber hform hpoint)
  case string =>
    obtain ⟨text, -, hw⟩ := hform
    exact ofLexeme_of_unquote? (unquote?_of_quoted hw)
  case boolean =>
    obtain ⟨b, hb, -⟩ := literal?_of_truth hform
    rw [hb]
    exact ofLexeme_truth table b
  case identifier =>
    rw [ofLexeme_of_isName hform]
    exact (table.typeOf_eq t.lexeme).symm

/-- The machine sees the kind of an operand. -/
theorem standsFor_resolve (s : Store) (hoperand : t.kind.isOperand = true) (hform : Form t.kind t.lexeme.toList) :
    t.StandsFor s (s.resolve t.lexeme) := by
  have hword := Assembly.Line.withoutComma_operand (Machine.isOperand_of_form hoperand hform)
  have hresolve : s.resolve t.lexeme = (Value.literal? t.lexeme).getD (s.get t.lexeme) := by
    rw [Store.resolve, hword]
  rw [hresolve]
  unfold StandsFor
  cases hkind : t.kind <;> rw [hkind] at hoperand hform <;>
    simp only [TokenKind.isOperand, Bool.false_eq_true] at hoperand
  case number =>
    show if _ then _ else _
    by_cases hpoint : '.' ∈ t.lexeme.toList
    · rw [if_pos (Or.inl hpoint)]
      obtain ⟨whole, fraction, hwhole, hfraction, hw⟩ := exists_point_of_isNumber hform hpoint
      obtain ⟨x, hread, hx⟩ := literal?_of_point hwhole hfraction hw
      exact ⟨x, hread, by rw [hx]; rfl⟩
    have hdigits := isDigits_of_isNumber hform hpoint
    rw [literal?_of_isDigits hdigits]
    by_cases hlarge : 9223372036854775807 < numeral t.lexeme.toList
    · rw [if_pos (Or.inr hlarge), ofInt?_numeral_eq_none hlarge]
      obtain ⟨x, hx⟩ := Option.isSome_iff_exists.mp (read?_digits hdigits)
      exact ⟨x, hx, by rw [hx]; rfl⟩
    · rw [if_neg (not_or.mpr ⟨hpoint, hlarge⟩)]
      obtain ⟨n, hn, hvalue⟩ := ofInt?_numeral (Nat.le_of_not_lt hlarge)
      exact ⟨n, hvalue, by rw [hn]; rfl⟩
  case string =>
    obtain ⟨text, -, hw⟩ := hform
    exact ⟨text, hw, by rw [literal?_of_unquote? (unquote?_of_quoted hw)]; rfl⟩
  case boolean =>
    obtain ⟨b, hb, hvalue⟩ := literal?_of_truth hform
    exact ⟨b, hb, by rw [hvalue]; rfl⟩
  case identifier =>
    rw [literal?_of_isName hform]
    rfl

/-- **Type checker and machine make of an operand of a source what its kind says, whatever the table and the store hold:
it has the type and the one value of its kind, and only a name is no literal.** -/
theorem operand_read_alike {source : String} (ht : t ∈ tokenize source) (hoperand : t.kind.isOperand = true)
    (table : SymbolTable) (s : Store) :
    ValueType.ofLexeme table t.lexeme = t.operandType table ∧
      (∀ v, t.StandsFor s v ↔ v = s.resolve t.lexeme) ∧
      (Value.literal? t.lexeme = none ↔ t.kind = .identifier) := by
  have hform : Form t.kind t.lexeme.toList := Lexer.form_of_mem_tokenize ht
  have hvalue := standsFor_resolve s hoperand hform
  refine ⟨ofLexeme_eq_operandType table hoperand hform, fun v => ⟨fun hv => hv.unique hvalue, ?_⟩, ?_, ?_⟩
  · rintro rfl
    exact hvalue
  · exact kind_of_literal?_eq_none hoperand hform
  · intro hkind
    rw [hkind] at hform
    exact literal?_of_isName hform

/-- A text that looks like a number with a comma, and a name that begins like a truth value. -/
def lookalikes : String := "rat(\"-1,\", true1);"

theorem operand_read_alike_lookalikes :
    (⟨.string, "\"-1,\"", 1, 5, 10⟩ : Token) ∈ tokenize lookalikes ∧
      (⟨.identifier, "true1", 1, 12, 17⟩ : Token) ∈ tokenize lookalikes ∧
      TokenKind.isOperand .string = true ∧ TokenKind.isOperand .identifier = true ∧
      ValueType.ofLexeme .empty "\"-1,\"" = .data .text ∧ Store.empty.resolve "\"-1,\"" = .str "-1," ∧
      ValueType.ofLexeme .empty "true1" = .unknown ∧ Store.empty.resolve "true1" = .int 0 := by
  have htext : (⟨.string, "\"-1,\"", 1, 5, 10⟩ : Token) ∈ tokenize lookalikes := by decide +kernel
  have hname : (⟨.identifier, "true1", 1, 12, 17⟩ : Token) ∈ tokenize lookalikes := by decide +kernel
  obtain ⟨htextType, htextValue, -⟩ := operand_read_alike htext rfl .empty .empty
  obtain ⟨hnameType, hnameValue, -⟩ := operand_read_alike hname rfl .empty .empty
  have hquoted := (htextValue (.str "-1,")).mp ⟨"-1,".toList, rfl, rfl⟩
  exact ⟨htext, hname, rfl, rfl, htextType, hquoted.symm, hnameType, ((hnameValue (.int 0)).mp rfl).symm⟩

end Token

end Dotlang
