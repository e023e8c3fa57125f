import Dotlang.Machine.Value
import Mathlib

/-!
# Division rounds down

The quotient of two words is cut towards zero first, and then corrected where it has a remainder and the operands lie on
different sides of zero. What comes out is the floor of the exact quotient, and the remainder that goes with it.

* `floor_div_eq` : a quotient is the floor if its remainder lies between zero and the divisor;
* `exists_quotient` : so it does once both are corrected;
* `toInt_quotient_sub_one`, `toInt_remainder_add` : the corrections stay within a word;
* `Rounded a b q r` : what the quotient `q` and the remainder `r` of two words are;
* `arithmetic_rounds_down` : all operations on words.
-/

namespace Dotlang.Word

/-! ## Integers -/

/-- From zero, which it may be, to the divisor, which it may not. -/
def Within (r b : ℤ) : Prop := 0 ≤ r ∧ r < b ∨ b < r ∧ r ≤ 0

theorem floor_div_eq {a b q r : ℤ} (h : a = b * q + r) (hr : Within r b) : ⌊(a / b : ℚ)⌋ = q := by
  have hb : (b : ℚ) ≠ 0 := by
    unfold Within at hr
    exact_mod_cast (show b ≠ 0 by omega)
  have hsplit : (a / b : ℚ) = r / b + q := by
    rw [h]
    push_cast
    field_simp
    ring
  have hfraction : ⌊(r / b : ℚ)⌋ = 0 := by
    rw [Int.floor_eq_zero_iff, Set.mem_Ico]
    rcases hr with ⟨hr, hrb⟩ | ⟨hrb, hr⟩
    · have hpos : (0 : ℚ) < b := by exact_mod_cast hr.trans_lt hrb
      exact ⟨div_nonneg (by exact_mod_cast hr) hpos.le, (div_lt_one hpos).mpr (by exact_mod_cast hrb)⟩
    · have hneg : (b : ℚ) < 0 := by exact_mod_cast hrb.trans_le hr
      exact ⟨div_nonneg_of_nonpos (by exact_mod_cast hr) hneg.le, (div_lt_one_of_neg hneg).mpr (by exact_mod_cast hrb)⟩
  rw [hsplit, Int.floor_add_intCast, hfraction, zero_add]

theorem Within.sign {r b : ℤ} (h : Within r b) : r = 0 ∨ r.sign = b.sign := by
  rcases h with ⟨hr, hrb⟩ | ⟨hrb, hr⟩
  · refine hr.eq_or_lt.imp Eq.symm fun hpos => ?_
    rw [Int.sign_eq_one_of_pos hpos, Int.sign_eq_one_of_pos (hpos.trans hrb)]
  · refine hr.eq_or_lt.imp id fun hneg => ?_
    rw [Int.sign_eq_neg_one_of_neg hneg, Int.sign_eq_neg_one_of_neg (hrb.trans hneg)]

theorem Within.abs_lt {r b : ℤ} (h : Within r b) : |r| < |b| := by
  rcases h with ⟨hr, hrb⟩ | ⟨hrb, hr⟩
  · rwa [abs_of_nonneg hr, abs_of_pos (hr.trans_lt hrb)]
  · rw [abs_of_nonpos hr, abs_of_neg (hrb.trans_le hr)]
    exact neg_lt_neg hrb

/-- A remainder has the sign of the dividend, and is smaller than the divisor. -/
theorem tmod_bounds (x : ℤ) {y : ℤ} (hy : y ≠ 0) :
    (0 ≤ x → 0 ≤ x.tmod y) ∧ (x ≤ 0 → x.tmod y ≤ 0) ∧ (x.tmod y).natAbs < y.natAbs := by
  refine ⟨Int.tmod_nonneg y, fun hx => ?_, ?_⟩
  · have hneg := Int.tmod_nonneg y (Int.neg_nonneg_of_nonpos hx)
    rw [Int.neg_tmod] at hneg
    omega
  · rw [Int.natAbs_tmod]
    exact Nat.mod_lt _ (Int.natAbs_pos.mpr hy)

/-! ## Words -/

variable {a b : Int64}

theorem toInt_ne_zero : a.toInt ≠ 0 ↔ a ≠ 0 := by
  rw [Ne, ← Int64.toInt_zero, Int64.toInt_inj]

theorem signsDiffer_iff : signsDiffer a b = true ↔ (a.toInt < 0 ↔ 0 ≤ b.toInt) := by
  rw [signsDiffer, bne_iff_ne, Ne, decide_eq_decide, Int64.lt_iff_toInt_lt, Int64.lt_iff_toInt_lt, Int64.toInt_zero,
    ← not_lt (a := b.toInt)]
  tauto

/-- A remainder lies on the same side as the dividend. -/
theorem signsDiffer_remainder (hb : b ≠ 0) (h : a % b ≠ 0) : signsDiffer (a % b) b = signsDiffer a b := by
  obtain ⟨hpos, hneg, -⟩ := tmod_bounds a.toInt (toInt_ne_zero.mpr hb)
  have hrem : a.toInt.tmod b.toInt ≠ 0 := by rwa [← Int64.toInt_mod, toInt_ne_zero]
  rw [Bool.eq_iff_iff, signsDiffer_iff, signsDiffer_iff, Int64.toInt_mod]
  omega

/-- A sum across zero is a word. -/
theorem toInt_add_of_signsDiffer (h : signsDiffer a b = true) : (a + b).toInt = a.toInt + b.toInt := by
  rw [signsDiffer_iff] at h
  have ha := a.le_toInt
  have ha' := a.toInt_lt
  have hb := b.le_toInt
  have hb' := b.toInt_lt
  rw [Int64.toInt_add]
  exact Int.bmod_eq_of_le (by omega) (by omega)

/-- A quotient that leaves a remainder is far from the ends of a word. -/
theorem natAbs_tdiv_le (h : a % b ≠ 0) : (a.toInt.tdiv b.toInt).natAbs ≤ 2 ^ 62 := by
  have ha := a.le_toInt
  have ha' := a.toInt_lt
  have hrem : a.toInt.tmod b.toInt ≠ 0 := by rwa [← Int64.toInt_mod, toInt_ne_zero]
  -- one divides everything, so what leaves a remainder is divided by two at least
  have hone : b.toInt.natAbs ≠ 1 := by
    intro hone
    refine hrem (Int.tmod_eq_zero_of_dvd ?_)
    rw [← Int.natAbs_dvd_natAbs, hone]
    exact one_dvd _
  rw [Int.natAbs_tdiv]
  show a.toInt.natAbs / b.toInt.natAbs ≤ 2 ^ 62
  rcases Nat.lt_or_gt_of_ne hone with hzero | htwo
  · obtain hzero := Nat.lt_one_iff.mp hzero
    rw [hzero, Nat.div_zero]
    exact Nat.zero_le _
  · have hhalf : a.toInt.natAbs / b.toInt.natAbs ≤ a.toInt.natAbs / 2 := Nat.div_le_div_left htwo Nat.two_pos
    omega

theorem toInt_quotient_sub_one (h : a % b ≠ 0) : (a / b - 1).toInt = (a / b).toInt - 1 := by
  have hle := natAbs_tdiv_le h
  have hquotient : (a / b).toInt = a.toInt.tdiv b.toInt := by
    rw [Int64.toInt_div]
    exact Int.bmod_eq_of_le (by omega) (by omega)
  rw [Int64.toInt_sub, hquotient, Int64.toInt_one]
  exact Int.bmod_eq_of_le (by omega) (by omega)

/-- The quotient as it would be without an end to the integers. -/
theorem exists_quotient (a : Int64) (hb : b ≠ 0) :
    ∃ q : ℤ, floorDiv a b = .ofInt q ∧ a.toInt = b.toInt * q + (floorMod a b).toInt ∧
      Within (floorMod a b).toInt b.toInt := by
  obtain ⟨hpos, hneg, habs⟩ := tmod_bounds a.toInt (toInt_ne_zero.mpr hb)
  have hsplit := Int.mul_tdiv_add_tmod a.toInt b.toInt
  have hquotient : a / b = .ofInt (a.toInt.tdiv b.toInt) := by
    rw [← Int64.toInt_inj, Int64.toInt_div, Int64.toInt_ofInt]
  unfold Within
  -- a remainder lies on the side of the dividend, so quotient and remainder are corrected together or not at all
  by_cases hcorrected : a % b ≠ 0 ∧ signsDiffer a b = true
  · have hsigns := signsDiffer_remainder hb hcorrected.1
    have hsum := toInt_add_of_signsDiffer (hsigns.trans hcorrected.2)
    refine ⟨a.toInt.tdiv b.toInt - 1, ?_, ?_⟩
    · rw [floorDiv, if_pos hcorrected, hquotient, Int64.ofInt_sub]
      rfl
    · rw [floorMod, if_pos ⟨hcorrected.1, hsigns.trans hcorrected.2⟩, hsum, Int64.toInt_mod, mul_sub_one]
      have hdiffer := signsDiffer_iff.mp hcorrected.2
      have hrem : a.toInt.tmod b.toInt ≠ 0 := by
        rw [← Int64.toInt_mod]
        exact toInt_ne_zero.mpr hcorrected.1
      omega
  · refine ⟨a.toInt.tdiv b.toInt, ?_, ?_⟩
    · rw [floorDiv, if_neg hcorrected, hquotient]
    · have hkept : ¬ (a % b ≠ 0 ∧ signsDiffer (a % b) b = true) := by
        rintro ⟨hrem, hsigns⟩
        exact hcorrected ⟨hrem, (signsDiffer_remainder hb hrem).symm.trans hsigns⟩
      rw [floorMod, if_neg hkept, Int64.toInt_mod]
      rw [signsDiffer_iff, ← toInt_ne_zero, Int64.toInt_mod] at hcorrected
      omega

/-- What the quotient `q` and the remainder `r` of two words are. -/
structure Rounded (a b q r : Int64) : Prop where
  quotient : q = .ofInt ⌊(a.toInt / b.toInt : ℚ)⌋
  remainder : r.toInt = a.toInt - b.toInt * ⌊(a.toInt / b.toInt : ℚ)⌋
  sign : r = 0 ∨ r.toInt.sign = b.toInt.sign
  smaller : |r.toInt| < |b.toInt|
  whole : a.toInt ≡ b.toInt * q.toInt + r.toInt [ZMOD 2 ^ 64]

theorem rounded_floorDiv (a : Int64) (hb : b ≠ 0) : Rounded a b (floorDiv a b) (floorMod a b) := by
  obtain ⟨q, hq, hsplit, hwithin⟩ := exists_quotient a hb
  have hfloor := floor_div_eq hsplit hwithin
  have hmod : (Int64.ofInt q).toInt ≡ q [ZMOD 2 ^ 64] := by
    rw [Int64.toInt_ofInt]
    exact Int.bmod_emod
  constructor
  · rw [hfloor, hq]
  · rw [hfloor]
    omega
  · exact hwithin.sign.imp_left fun hzero => not_not.mp fun hne => toInt_ne_zero.mpr hne hzero
  · exact hwithin.abs_lt
  · rw [hq]
    calc a.toInt ≡ b.toInt * q + (floorMod a b).toInt [ZMOD 2 ^ 64] := by rw [← hsplit]
      _ ≡ b.toInt * (Int64.ofInt q).toInt + (floorMod a b).toInt [ZMOD 2 ^ 64] :=
        ((hmod.symm.mul_left _).add_right _)

end Dotlang.Word

namespace Dotlang

open Value (int)
open Word (signsDiffer Rounded)

/-- **Arithmetic on words is floor arithmetic modulo `2 ^ 64`**, and its corrections stay within a word. -/
theorem arithmetic_rounds_down (a b : Int64) :
    (int a).apply .add (int b) = .ok (int (.ofInt (a.toInt + b.toInt))) ∧
      (int a).apply .sub (int b) = .ok (int (.ofInt (a.toInt - b.toInt))) ∧
      (int a).apply .mul (int b) = .ok (int (.ofInt (a.toInt * b.toInt))) ∧
      (b = 0 → (int a).apply .div (int b) = .error .divisionByZero ∧
        (int a).apply .mod (int b) = .error .moduloByZero) ∧
      (b ≠ 0 → (∃ q r, (int a).apply .div (int b) = .ok (int q) ∧ (int a).apply .mod (int b) = .ok (int r) ∧
          Rounded a b q r) ∧
        (a % b ≠ 0 → signsDiffer a b = true → (a / b - 1).toInt = (a / b).toInt - 1) ∧
        (a % b ≠ 0 → signsDiffer (a % b) b = true → (a % b + b).toInt = (a % b).toInt + b.toInt)) := by
  have happly : ∀ op, (int a).apply op (int b) = Value.applyInt op a b := by
    intro op
    rw [Value.apply, if_neg (by simp [Value.isText])]
    rfl
  simp only [happly]
  refine ⟨?_, ?_, ?_, fun hb => ?_, fun hb => ⟨⟨_, _, ?_, ?_, Word.rounded_floorDiv a hb⟩, ?_, ?_⟩⟩
  · rw [Int64.ofInt_add, Int64.ofInt_toInt, Int64.ofInt_toInt]
    rfl
  · rw [Int64.ofInt_sub, Int64.ofInt_toInt, Int64.ofInt_toInt]
    rfl
  · rw [Int64.ofInt_mul, Int64.ofInt_toInt, Int64.ofInt_toInt]
    rfl
  · exact ⟨if_pos hb, if_pos hb⟩
  · exact if_neg hb
  · exact if_neg hb
  · exact fun hrem _ => Word.toInt_quotient_sub_one hrem
  · exact fun _ hsigns => Word.toInt_add_of_signsDiffer hsigns

/-- Seven below zero halved, and divided by nothing. -/
theorem arithmetic_rounds_down_minusSeven :
    (int (-7)).apply .div (int 2) = .ok (int (-4)) ∧ (int (-7)).apply .mod (int 2) = .ok (int 1) ∧
      Rounded (-7) 2 (-4) 1 ∧ ((-7 / 2 : Int64) - 1).toInt = (-7 / 2 : Int64).toInt - 1 ∧
      ((-7 % 2 : Int64) + 2).toInt = (-7 % 2 : Int64).toInt + (2 : Int64).toInt ∧
      (int (-7)).apply .div (int 0) = .error .divisionByZero ∧
      (int (-7)).apply .mod (int 0) = .error .moduloByZero := by
  obtain ⟨-, -, -, -, htwo⟩ := arithmetic_rounds_down (-7) 2
  obtain ⟨-, -, -, hzero, -⟩ := arithmetic_rounds_down (-7) 0
  obtain ⟨⟨q, r, hdiv, hmod, hrounded⟩, hquotient, hremainder⟩ := htwo (by decide)
  obtain rfl : q = -4 := (Value.int.inj (Except.ok.inj hdiv)).symm
  obtain rfl : r = 1 := (Value.int.inj (Except.ok.inj hmod)).symm
  exact ⟨hdiv, hmod, hrounded, hquotient (by decide) (by decide), hremainder (by decide) (by decide), hzero rfl⟩

end Dotlang
