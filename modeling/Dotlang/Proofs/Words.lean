import Dotlang.Machine.Store
import Dotlang.Proofs.Decoding
import Dotlang.Typing

/-!
# The type and the value of a word

The type checker and the machine look at the spelling of a word on their own, and agree on the words of
tokens.

* `literal?_of_isDigits`, `literal?_of_point`, `literal?_of_unquote?`, `literal?_of_truth` : the values of literals;
* `literal?_of_isNumber`, `literal?_of_isName`, `ofLexeme_of_isName` : what they make of a number or a name;
* `Store.Typed table s` : a variable of `s` that holds a text is declared as one;
* `Store.Typed.ofLexeme_of_isText` : an operand is a text only if its word has the type of texts.
-/

namespace Dotlang

open Text (splitMinus unquote? isDigits)
open Lexer (Form IsNumber IsName Quotable)

/-! ## Digits -/

theorem isDigits_cons {ds : List Char} (h : isDigits ds = true) :
    ∃ c cs, ds = c :: cs ∧ c.isDigit = true ∧ ∀ d ∈ ds, d.isDigit = true := by
  simp only [isDigits, Bool.and_eq_true, bne_iff_ne, List.all_eq_true] at h
  cases ds with
  | nil => exact absurd rfl h.1
  | cons c cs => exact ⟨c, cs, rfl, h.2 c List.mem_cons_self, h.2⟩

theorem splitMinus_of_isDigit {c : Char} (h : c.isDigit = true) (cs : List Char) :
    splitMinus (c :: cs) = (false, c :: cs) := by
  unfold splitMinus
  split
  · rename_i heq
    cases heq
    exact absurd h (by decide)
  · rfl

theorem unquote?_of_ne {c : Char} (h : c ≠ '"') (cs : List Char) : unquote? (c :: cs) = none := by
  unfold unquote?
  split
  · rename_i heq
    cases heq
    exact absurd rfl h
  · rfl

theorem ne_quote_of_isDigit {c : Char} (h : c.isDigit = true) : c ≠ '"' := by
  rintro rfl
  exact absurd h (by decide)

/-- What begins with a digit has no sign. -/
theorem read?_of_isDigit {c : Char} (h : c.isDigit = true) (cs : List Char) :
    Decimal.read? (c :: cs) = Decimal.readMagnitude? (c :: cs) := by
  unfold Decimal.read?
  split
  · rename_i heq
    cases heq
    exact absurd h (by decide)
  · rename_i heq
    cases heq
    exact absurd h (by decide)
  · rfl

theorem readMagnitude?_isSome {cs : List Char} (h : (Decimal.readDecimal? cs).isSome = true) :
    (Decimal.readMagnitude? cs).isSome = true := by
  simp only [Decimal.readMagnitude?]
  split_ifs
  · rfl
  · rfl
  · exact h

theorem read?_digits {ds : List Char} (h : isDigits ds = true) : (Decimal.read? ds).isSome = true := by
  obtain ⟨c, cs, rfl, hc, hall⟩ := isDigits_cons h
  rw [read?_of_isDigit hc]
  apply readMagnitude?_isSome
  simp only [Decimal.readDecimal?, List.takeWhile_eq_self_iff.mpr hall, List.dropWhile_eq_nil_iff.mpr hall]
  rfl

theorem not_isDigits_append_point (whole fraction : List Char) : isDigits (whole ++ '.' :: fraction) = false := by
  have hpoint : '.'.isDigit = false := by decide
  simp [isDigits, hpoint]

section Point

variable {whole fraction : List Char} (hwhole : isDigits whole = true) (hfraction : isDigits fraction = true)
include hwhole

theorem takeWhile_point (fraction : List Char) (p : Char → Bool) (hp : ∀ c, c.isDigit = true → p c = true)
    (hpoint : p '.' = false) :
    (whole ++ '.' :: fraction).takeWhile p = whole ∧
      (whole ++ '.' :: fraction).dropWhile p = '.' :: fraction := by
  obtain ⟨-, -, -, -, hall⟩ := isDigits_cons hwhole
  have hpos : ∀ c ∈ whole, p c = true := fun c hc => hp c (hall c hc)
  constructor
  · rw [List.takeWhile_append_of_pos hpos, List.takeWhile_cons_of_neg (by simp [hpoint]), List.append_nil]
  · rw [List.dropWhile_append_of_pos hpos, List.dropWhile_cons_of_neg (by simp [hpoint])]

include hfraction

theorem isDecimal_point : Value.isDecimal (whole ++ '.' :: fraction) = true := by
  obtain ⟨htake, hdrop⟩ := takeWhile_point hwhole fraction (· != '.')
    (fun c hc => by rw [bne_iff_ne]; rintro rfl; exact absurd hc (by decide)) (by decide)
  rw [Value.isDecimal, htake, hdrop, List.drop_one, List.tail_cons, hwhole, hfraction, Bool.and_self]

theorem read?_point : (Decimal.read? (whole ++ '.' :: fraction)).isSome = true := by
  obtain ⟨c, cs, rfl, hc, -⟩ := isDigits_cons hwhole
  obtain ⟨htake, hdrop⟩ := takeWhile_point hwhole fraction Char.isDigit (fun c hc => hc) (by decide)
  obtain ⟨-, -, -, -, hfractions⟩ := isDigits_cons hfraction
  rw [List.cons_append] at htake hdrop ⊢
  rw [read?_of_isDigit hc]
  apply readMagnitude?_isSome
  simp only [Decimal.readDecimal?]
  rw [htake, hdrop]
  simp only [List.takeWhile_eq_self_iff.mpr hfractions, List.dropWhile_eq_nil_iff.mpr hfractions]
  rw [if_neg (by simp)]
  rfl

end Point

/-! ## Words that begin in no digit -/

section Head

variable {c : Char} (hc : c.isDigit = false) (hminus : c ≠ '-') (cs : List Char)
include hc

theorem not_isDigits_cons : isDigits (c :: cs) = false := by
  simp [isDigits, hc]

theorem not_isDigits_takeWhile (p : Char → Bool) : isDigits ((c :: cs).takeWhile p) = false := by
  by_cases hp : p c = true
  · rw [List.takeWhile_cons_of_pos hp]
    exact not_isDigits_cons hc _
  · rw [List.takeWhile_cons_of_neg hp]
    rfl

theorem not_isDecimal_cons : Value.isDecimal (c :: cs) = false := by
  rw [Value.isDecimal, not_isDigits_takeWhile hc, Bool.false_and]

include hminus

theorem splitMinus_of_ne : splitMinus (c :: cs) = (false, c :: cs) := by
  unfold splitMinus
  split
  · rename_i heq
    cases heq
    exact absurd rfl hminus
  · rfl

theorem not_isInteger_cons : ValueType.isInteger (c :: cs) = false := by
  rw [ValueType.isInteger, splitMinus_of_ne hc hminus]
  exact not_isDigits_cons hc cs

theorem not_isDecimalType_cons : ValueType.isDecimal (c :: cs) = false := by
  simp only [ValueType.isDecimal, splitMinus_of_ne hc hminus, not_isDigits_takeWhile hc, Bool.false_and]

end Head

theorem isWordStart_ne {c : Char} (h : Text.isWordStart c = true) : c.isDigit = false ∧ c ≠ '-' ∧ c ≠ '"' := by
  refine ⟨?_, ?_, ?_⟩
  · rw [Bool.eq_false_iff]
    intro hdigit
    simp only [Text.isWordStart, Char.isAlpha, Char.isUpper, Char.isLower, Char.isDigit, Bool.or_eq_true,
      Bool.and_eq_true, decide_eq_true_eq, beq_iff_eq, ge_iff_le, UInt32.le_iff_toNat_le] at h hdigit
    have hlast : c.val.toNat ≤ 57 := hdigit.2
    rcases h with (h | h) | rfl
    · have hfirst : 65 ≤ c.val.toNat := h.1
      omega
    · have hfirst : 97 ≤ c.val.toNat := h.1
      omega
    · exact absurd hdigit (by decide)
  · rintro rfl
    exact absurd h (by decide)
  · rintro rfl
    exact absurd h (by decide)

/-! ## Words of tokens -/

section Forms

variable {w : String}

theorem literal?_of_isDigits (h : isDigits w.toList = true) :
    Value.literal? w = some (((Word.ofInt? (Value.signed false w.toList)).map Value.int).getD
      (.float ((Decimal.read? w.toList).getD 0.0))) := by
  obtain ⟨c, cs, hw, hc, -⟩ := isDigits_cons h
  rw [hw] at h
  simp only [Value.literal?, hw, splitMinus_of_isDigit hc, unquote?_of_ne (ne_quote_of_isDigit hc), h, if_true]
  cases Word.ofInt? (Value.signed false (c :: cs)) <;> rfl

theorem literal?_of_point {whole fraction : List Char} (hwhole : isDigits whole = true)
    (hfraction : isDigits fraction = true) (hw : w.toList = whole ++ '.' :: fraction) :
    ∃ x, Decimal.read? w.toList = some x ∧ Value.literal? w = some (.float x) := by
  obtain ⟨x, hx⟩ := Option.isSome_iff_exists.mp (read?_point hwhole hfraction)
  have hdecimal := isDecimal_point hwhole hfraction
  have hdigits := not_isDigits_append_point whole fraction
  obtain ⟨c, cs, rfl, hc, -⟩ := isDigits_cons hwhole
  rw [List.cons_append] at hw hx hdecimal hdigits
  refine ⟨x, hw ▸ hx, ?_⟩
  simp only [Value.literal?, hw, splitMinus_of_isDigit hc, unquote?_of_ne (ne_quote_of_isDigit hc), hdigits,
    hdecimal, if_true, hx, Bool.false_eq_true, if_false, Option.map_some]

theorem literal?_of_isNumber (h : IsNumber w.toList) : ∃ v, Value.literal? w = some v ∧ v.isText = false := by
  rcases h with h | ⟨whole, fraction, hwhole, hfraction, hw⟩
  · refine ⟨_, literal?_of_isDigits h, ?_⟩
    cases Word.ofInt? (Value.signed false w.toList) <;> rfl
  · obtain ⟨x, -, hx⟩ := literal?_of_point hwhole hfraction hw
    exact ⟨.float x, hx, rfl⟩

theorem unquote?_of_quoted {text : List Char} (hw : w.toList = '"' :: (text ++ ['"'])) :
    unquote? w.toList = some text := by
  rw [hw, ← List.cons_append]
  exact Text.unquote?_quoted text

theorem literal?_of_unquote? {inner : List Char} (h : unquote? w.toList = some inner) :
    Value.literal? w = some (.str (String.ofList inner)) := by
  simp only [Value.literal?, h]

theorem literal?_of_truth (h : w.toList = "true".toList ∨ w.toList = "false".toList) :
    ∃ b : Bool, w = toString b ∧ Value.literal? w = some (.bool b) := by
  rcases h with hw | hw
  · exact ⟨true, String.toList_inj.mp hw, by rw [String.toList_inj.mp hw]; decide +kernel⟩
  · exact ⟨false, String.toList_inj.mp hw, by rw [String.toList_inj.mp hw]; decide +kernel⟩

theorem ofLexeme_of_unquote? {table : SymbolTable} {inner : List Char} (h : unquote? w.toList = some inner) :
    ValueType.ofLexeme table w = .data .text := by
  obtain ⟨cs, hw⟩ : ∃ cs, w.toList = '"' :: cs := by
    unfold unquote? at h
    split at h
    · rename_i cs heq
      exact ⟨cs, heq⟩
    · simp at h
  have hsome : (unquote? ('"' :: cs)).isSome = true := by
    rw [← hw, h]
    rfl
  simp only [ValueType.ofLexeme, hw, not_isInteger_cons (by decide : '"'.isDigit = false) (by decide),
    not_isDecimalType_cons (by decide : '"'.isDigit = false) (by decide), hsome, if_true, Bool.false_eq_true,
    if_false]

theorem literal?_eq_none {c : Char} {cs : List Char} (hw : w.toList = c :: cs) (hdigit : c.isDigit = false)
    (hminus : c ≠ '-') (hquote : c ≠ '"') (htruth : w ≠ "true" ∧ w ≠ "false") : Value.literal? w = none := by
  simp only [Value.literal?, hw, splitMinus_of_ne hdigit hminus, unquote?_of_ne hquote, not_isDigits_cons hdigit,
    not_isDecimal_cons hdigit, Bool.false_eq_true, if_false, htruth.1, htruth.2]

theorem literal?_of_isName (h : IsName w.toList) : Value.literal? w = none := by
  obtain ⟨c, cs, hw, hstart⟩ := h.head
  obtain ⟨hdigit, hminus, hquote⟩ := isWordStart_ne hstart
  have htruth := h.noTruth
  rw [String.ofList_toList] at htruth
  exact literal?_eq_none hw hdigit hminus hquote htruth

/-- Of the operands in a source only names are no literals. -/
theorem kind_of_literal?_eq_none {kind : TokenKind} (hkind : kind.isOperand = true) (hform : Form kind w.toList)
    (h : Value.literal? w = none) : kind = .identifier := by
  cases kind <;> simp only [TokenKind.isOperand, Bool.false_eq_true] at hkind
  case number =>
    obtain ⟨v, hv, -⟩ := literal?_of_isNumber hform
    rw [h] at hv
    cases hv
  case string =>
    obtain ⟨body, -, hw⟩ := hform
    rw [literal?_of_unquote? (unquote?_of_quoted hw)] at h
    cases h
  case boolean =>
    obtain ⟨b, -, hb⟩ := literal?_of_truth hform
    rw [hb] at h
    cases h
  case identifier => rfl

theorem ofLexeme_of_isName {table : SymbolTable} (h : IsName w.toList) :
    ValueType.ofLexeme table w = (ValueType.ofName? table w).getD .unknown := by
  obtain ⟨c, cs, hw, hstart⟩ := h.head
  obtain ⟨hdigit, hminus, hquote⟩ := isWordStart_ne hstart
  have htruth := h.noTruth
  rw [String.ofList_toList] at htruth
  simp only [ValueType.ofLexeme, hw, not_isInteger_cons hdigit hminus, not_isDecimalType_cons hdigit hminus,
    unquote?_of_ne hquote, Option.isSome_none, Bool.false_eq_true, if_false, htruth.1, htruth.2, or_self]

end Forms

/-! ## Operands in a store -/

/-- A variable that holds a text is declared as one. -/
def Store.Typed (table : SymbolTable) (s : Store) : Prop :=
  ∀ name text, s.get? name = some (.str text) → ValueType.ofName? table name = some (.data .text)

namespace Store

variable {table : SymbolTable} {s : Store}

theorem typed_empty : empty.Typed table := by
  intro name text h
  simp [empty, get?] at h

theorem Typed.set (h : s.Typed table) {name : String} {v : Value}
    (hv : v.isText = true → ValueType.ofName? table name = some (.data .text)) : (s.set name v).Typed table := by
  intro other text hget
  rw [get?_set] at hget
  split_ifs at hget with hname
  · cases hget
    subst hname
    exact hv rfl
  · exact h other text hget

theorem Typed.ofName?_of_isText (h : s.Typed table) {name : String} (htext : (s.get name).isText = true) :
    ValueType.ofName? table name = some (.data .text) := by
  unfold get at htext
  cases hget : s.get? name with
  | none =>
    rw [hget] at htext
    exact absurd htext (by decide)
  | some v =>
    rw [hget, Option.getD_some] at htext
    cases v <;> simp only [Value.isText, Bool.false_eq_true] at htext
    exact h name _ hget

/-- **Of the words of tokens only those that have the type of texts can have texts as values.** -/
theorem Typed.ofLexeme_of_isText (h : s.Typed table) {kind : TokenKind} {w : String} (hkind : kind.isOperand = true)
    (hform : Form kind w.toList) (htext : (s.resolve w).isText = true) :
    ValueType.ofLexeme table w = .data .text := by
  rw [resolve, Assembly.Line.withoutComma_operand (Machine.isOperand_of_form hkind hform)] at htext
  cases kind <;> simp only [TokenKind.isOperand, Bool.false_eq_true] at hkind
  case number =>
    obtain ⟨v, hv, hnone⟩ := literal?_of_isNumber hform
    rw [hv, Option.getD_some, hnone] at htext
    exact absurd htext (by decide)
  case string =>
    obtain ⟨body, -, hw⟩ := hform
    exact ofLexeme_of_unquote? (unquote?_of_quoted hw)
  case boolean =>
    obtain ⟨b, -, hv⟩ := literal?_of_truth hform
    rw [hv] at htext
    exact absurd htext (by simp [Value.isText])
  case identifier =>
    rw [literal?_of_isName hform, Option.getD_none] at htext
    rw [ofLexeme_of_isName hform, h.ofName?_of_isText htext, Option.getD_some]

end Store

end Dotlang
