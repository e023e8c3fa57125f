import Dotlang.Machine.Step
import Dotlang.Proofs.Words

/-!
# Integers as text

An integer is printed as a sign, if it is below zero, and the digits of its magnitude. A literal is read back with its sign
and its digits at once. A reply is read in two steps: the digits have to fit in a word first, and then the sign applies. One
integer has a magnitude that no word holds.

* `toList_display_int` : what an integer prints as;
* `literal?_display_int` : as a literal it stands for itself;
* `intOfText_display_int` : at the start of a reply it is read as itself, unless it is the least one;
* `integer_survives_text` : what a program makes of an integer that was printed, as a reply and in a line of assembly.
-/

namespace Dotlang.Value

open Text (isBlank isDigits splitMinus trimStart)

/-! ## What an integer prints as -/

section Digits

variable (k : Nat)

theorem isDigit_of_mem_toDigits {c : Char} (h : c ∈ Nat.toDigits 10 k) : c.isDigit = true :=
  Nat.isDigit_of_mem_toDigits (by decide) (by decide) h

theorem isDigits_toDigits : isDigits (Nat.toDigits 10 k) = true := by
  rw [isDigits, Bool.and_eq_true, bne_iff_ne, List.all_eq_true]
  exact ⟨Nat.toDigits_ne_nil, fun _ h => isDigit_of_mem_toDigits k h⟩

theorem signed_toDigits (negative : Bool) :
    signed negative (Nat.toDigits 10 k) = if negative then -(k : Int) else k := by
  rw [signed, Nat.ofDigitChars_ten_toDigits]

/-- Digits end where no digit follows. -/
theorem takeWhile_toDigits {behind : List Char} (h : ∀ c, behind.head? = some c → c.isDigit = false) :
    (Nat.toDigits 10 k ++ behind).takeWhile Char.isDigit = Nat.toDigits 10 k := by
  rw [List.takeWhile_append_of_pos fun _ hc => isDigit_of_mem_toDigits k hc]
  cases behind with
  | nil => exact List.append_nil _
  | cons c cs => rw [List.takeWhile_cons_of_neg (by simp [h c rfl]), List.append_nil]

end Digits

theorem toList_display_int (n : Int64) :
    (int n).display.toList = (if n.toInt < 0 then ['-'] else []) ++ Nat.toDigits 10 n.toInt.natAbs := by
  rw [display, Int.toString_eq_repr, Int.repr_eq_if]
  by_cases hn : n.toInt < 0
  · rw [if_neg (by omega), if_pos hn, String.toList_append, Nat.toList_repr, show (-n.toInt).toNat = n.toInt.natAbs by omega]
    rfl
  · rw [if_pos (by omega), if_neg hn, Nat.toList_repr, show n.toInt.toNat = n.toInt.natAbs by omega]
    rfl

/-- A printed integer is a word of its own. -/
theorem isOperand_display_int (n : Int64) : Machine.IsOperand (int n).display.toList := by
  refine Or.inl ⟨?_, fun c hc => ?_⟩
  · rw [toList_display_int]
    exact List.append_ne_nil_of_right_ne_nil _ Nat.toDigits_ne_nil
  · rw [toList_display_int] at hc
    rcases List.mem_append.mp hc with hsign | hdigit
    · split_ifs at hsign
      · rw [List.mem_singleton.mp hsign]
        decide
      · cases hsign
    · exact Machine.isPlain_of_isDigit (isDigit_of_mem_toDigits _ hdigit)

/-! ## Reading it back -/

theorem ofInt?_toInt (n : Int64) : Word.ofInt? n.toInt = some n := by
  have hle := n.le_toInt
  have hlt := n.toInt_lt
  rw [Word.ofInt?, if_pos, Int64.ofInt_toInt]
  unfold Word.least Word.greatest
  omega

/-- As a literal an integer stands for itself, the least one as well. -/
theorem literal?_display_int (n : Int64) : literal? (int n).display = some (int n) := by
  have hsplit : splitMinus (int n).display.toList = (decide (n.toInt < 0), Nat.toDigits 10 n.toInt.natAbs) ∧
      Text.unquote? (int n).display.toList = none := by
    rw [toList_display_int]
    obtain ⟨c, cs, hcons, hc, -⟩ := isDigits_cons (isDigits_toDigits n.toInt.natAbs)
    split_ifs with hn
    · rw [decide_eq_true hn]
      exact ⟨rfl, rfl⟩
    · rw [decide_eq_false hn, hcons]
      exact ⟨splitMinus_of_isDigit hc cs, unquote?_of_ne (ne_quote_of_isDigit hc) cs⟩
  have hsigned : signed (decide (n.toInt < 0)) (Nat.toDigits 10 n.toInt.natAbs) = n.toInt := by
    rw [signed_toDigits]
    split_ifs with hn <;> simp only [decide_eq_true_eq] at hn <;> omega
  simp only [literal?, hsplit, isDigits_toDigits, if_true, hsigned, ofInt?_toInt]

/-- The magnitude of an integer is a word unless the integer is the least one. -/
theorem ofInt?_natAbs (n : Int64) :
    Word.ofInt? n.toInt.natAbs = if n = Int64.minValue then none else some (if n.toInt < 0 then -n else n) := by
  have hle := n.le_toInt
  have hlt := n.toInt_lt
  have hleast : n = Int64.minValue ↔ n.toInt = -2 ^ 63 := by rw [← Int64.toInt_inj, Int64.toInt_minValue]
  rw [Word.ofInt?]
  unfold Word.least Word.greatest
  by_cases hn : n = Int64.minValue
  · have hvalue := hleast.mp hn
    rw [if_pos hn, if_neg (by omega)]
  · have hvalue := mt hleast.mpr hn
    rw [if_neg hn, if_pos (by omega)]
    split_ifs with hneg
    · rw [show (n.toInt.natAbs : Int) = -n.toInt by omega, Int64.ofInt_neg, Int64.ofInt_toInt]
    · rw [show (n.toInt.natAbs : Int) = n.toInt by omega, Int64.ofInt_toInt]

theorem trimStart_append {blanks rest : List Char} (hblanks : ∀ c ∈ blanks, isBlank c = true)
    (hrest : ∀ c, rest.head? = some c → isBlank c = false) : trimStart (blanks ++ rest) = rest := by
  rw [trimStart, List.dropWhile_append_of_pos hblanks]
  cases rest with
  | nil => rfl
  | cons c cs => exact List.dropWhile_cons_of_neg (by simp [hrest c rfl])

/-- A sign, if there is one, and digits. -/
theorem intOfText_of_trimStart {s : String} {negative : Bool} {ds : List Char}
    (hs : trimStart s.toList = (if negative then ['-'] else []) ++ ds) (hdigit : ∀ c, ds.head? = some c → c.isDigit = true) :
    intOfText s = (Word.ofInt? (signed false (ds.takeWhile Char.isDigit))).elim 0 fun m => if negative then -m else m := by
  cases negative with
  | true =>
    rw [if_pos rfl, List.singleton_append] at hs
    simp only [intOfText, hs]
    cases Word.ofInt? (signed false (ds.takeWhile Char.isDigit)) <;> rfl
  | false =>
    rw [if_neg (by decide), List.nil_append] at hs
    have hminus : ∀ cs, ds ≠ '-' :: cs := by
      rintro cs rfl
      exact absurd (hdigit '-' rfl) (by decide)
    have hplus : ∀ cs, ds ≠ '+' :: cs := by
      rintro cs rfl
      exact absurd (hdigit '+' rfl) (by decide)
    simp only [intOfText, hs]
    cases Word.ofInt? (signed false (ds.takeWhile Char.isDigit)) <;> rfl

/-- The least integer is read as zero: without its sign it is too large. -/
theorem intOfText_display_int (n : Int64) {blanks behind : List Char} (hblanks : ∀ c ∈ blanks, isBlank c = true)
    (hbehind : ∀ c, behind.head? = some c → c.isDigit = false) :
    intOfText (String.ofList (blanks ++ (int n).display.toList ++ behind)) = if n = Int64.minValue then 0 else n := by
  have htrim : trimStart (blanks ++ (int n).display.toList ++ behind) = (int n).display.toList ++ behind := by
    rw [List.append_assoc]
    refine trimStart_append hblanks fun c hc => ?_
    rw [List.head?_append_of_ne_nil _ (isOperand_display_int n).ne_nil] at hc
    exact ((isOperand_display_int n).ends (Or.inl hc)).1
  have hsign : trimStart (String.ofList (blanks ++ (int n).display.toList ++ behind)).toList =
      (if decide (n.toInt < 0) then ['-'] else []) ++ (Nat.toDigits 10 n.toInt.natAbs ++ behind) := by
    rw [String.toList_ofList, htrim, toList_display_int, List.append_assoc]
    simp only [decide_eq_true_eq]
  have hdigit : ∀ c, (Nat.toDigits 10 n.toInt.natAbs ++ behind).head? = some c → c.isDigit = true := by
    intro c hc
    rw [List.head?_append_of_ne_nil _ Nat.toDigits_ne_nil] at hc
    exact isDigit_of_mem_toDigits _ (List.mem_of_head? hc)
  rw [intOfText_of_trimStart hsign hdigit, takeWhile_toDigits _ hbehind, signed_toDigits, if_neg (by decide), ofInt?_natAbs]
  by_cases hleast : n = Int64.minValue
  · rw [if_pos hleast, if_pos hleast]
    rfl
  · rw [if_neg hleast, if_neg hleast, Option.elim_some]
    by_cases hn : n.toInt < 0
    · rw [if_pos hn, if_pos (decide_eq_true hn)]
      exact Int64.neg_neg
    · rw [if_neg hn, if_neg (by simpa using hn)]

end Dotlang.Value

namespace Dotlang

open Machine (State Program IsOperand promptName)
open Assembly (Line)
open Value (int)

/-- **A printed integer can be typed back and written in a program, except that the least one cannot be typed.** A reply
has its digits read as a word before the sign applies, and those of the least integer are no word: it is read as zero. -/
theorem integer_survives_text (n : Int64) {blanks behind : List Char} (hblanks : ∀ c ∈ blanks, Text.isBlank c = true)
    (hbehind : ∀ c, behind.head? = some c → c.isDigit = false) :
    Value.intOfText (String.ofList (blanks ++ (int n).display.toList ++ behind)) = (if n = Int64.minValue then 0 else n) ∧
      Value.literal? (int n).display = some (int n) ∧
      -- a variable that holds it prints it, and a typed prompt takes what was printed
      (∀ (p : Program) (s t : State) (x message target : String), s.store.resolve x = int n →
        p.execute s (.call "printO" [x]) = .print (int n).display s ∧
        ∃ resume, p.execute t (.call promptName [message, DataType.integer.word, target]) = .prompt (t.display message) resume ∧
          resume (some (String.ofList (blanks ++ (int n).display.toList ++ behind))) =
            { t with store := t.store.set (Text.withoutComma target) (int (if n = Int64.minValue then 0 else n)) }) ∧
      -- in assembly it stands for itself, as any operand
      (∀ store : Store, store.resolve (int n).display = int n) ∧
      (∀ (p : Program) (s : State) (target : String), IsOperand target.toList →
        ∃ line, Machine.decode (Line.move target (int n).display).render.toList = .ok line ∧
          p.execute s line = .next { s with store := s.store.set target (int n) }) := by
  have hread := Value.intOfText_display_int n hblanks hbehind
  have hliteral := Value.literal?_display_int n
  have hoperand := Value.isOperand_display_int n
  have hresolve : ∀ store : Store, store.resolve (int n).display = int n := by
    intro store
    rw [Store.resolve, Line.withoutComma_operand hoperand, hliteral, Option.getD_some]
  refine ⟨hread, hliteral, fun p s t x message target hx => ⟨?_, ?_⟩, hresolve, fun p s target htarget => ?_⟩
  · rw [← hx]
    rfl
  · refine ⟨_, rfl, ?_⟩
    rw [← hread]
    rfl
  · have hreadable : (Line.move target (int n).display).Readable := by
      refine Line.readable_instruction rfl fun w hw => ?_
      rcases List.mem_pair.mp hw with rfl | rfl
      · exact htarget
      · exact hoperand
    refine ⟨_, Line.decode_render hreadable, ?_⟩
    rw [Program.execute, hresolve]

/-- Forty-two below zero, behind a blank and a tab and before a unit. -/
theorem integer_survives_text_minusFortyTwo :
    (∀ c ∈ [' ', '\t'], Text.isBlank c = true) ∧ (∀ c, " km".toList.head? = some c → c.isDigit = false) ∧
      Value.intOfText " \t-42 km" = -42 ∧ Value.literal? "-42" = some (int (-42)) ∧
      (Store.empty.set "x" (int 7)).resolve "-42" = int (-42) := by
  have hblanks : ∀ c ∈ [' ', '\t'], Text.isBlank c = true := List.all_eq_true.mp (by decide)
  have hbehind : ∀ c, " km".toList.head? = some c → c.isDigit = false := by
    intro c hc
    cases hc
    decide
  have hprinted : (int (-42)).display = "-42" := by decide
  have hreply : String.ofList ([' ', '\t'] ++ "-42".toList ++ " km".toList) = " \t-42 km" := by decide
  obtain ⟨hread, hliteral, -, hresolve, -⟩ := integer_survives_text (-42) hblanks hbehind
  rw [hprinted] at hliteral hresolve
  rw [hprinted, hreply] at hread
  exact ⟨hblanks, hbehind, hread, hliteral, hresolve _⟩

/-- What the least integer prints as is read as zero from a reply, though in assembly it stands for itself. -/
theorem leastInteger_is_not_typed :
    (int Int64.minValue).display = "-9223372036854775808" ∧ Value.intOfText "-9223372036854775808" = 0 ∧
      (0 : Int64) ≠ Int64.minValue ∧ Value.literal? "-9223372036854775808" = some (int Int64.minValue) := by
  decide

end Dotlang
