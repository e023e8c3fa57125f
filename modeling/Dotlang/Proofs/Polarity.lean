import Dotlang.Proofs.Control

/-!
# The negation of a relation

A comparison lays a false jump where a body is to be left out, and a true jump where a round is to be repeated. The
false jump tests the negation of what the true jump tests.

* `floatOrder?_eq_compare` : decimals have the order of the floating-point standard;
* `isNaN_ofInt` : the decimal view of an integer is a number;
* `Value.isStray`, `Value.comparable` : the values without a place among the numbers, the pairs that have an order;
* `Relation.negate_holds_iff` : when the negation of a relation holds just if the relation does not;
* `Tests p k left right r x` : on line `k`, operands are compared, and line `x` comes next where `r` holds;
* `jump_polarity` : the false jump is taken just if the true jump is not, unless the values have no order.
-/

namespace Dotlang

open Machine (Program Scene)
open Machine.Program (Goes)
open Float.Model (UnpackedFloat Format)
open Float.Model.UnpackedFloat (unpack pack)

/-! ## The order of decimals -/

namespace Decimal

variable {x y : UnpackedFloat}

theorem compare_swap (x y : UnpackedFloat) : y.compare x = (x.compare y).map Ordering.swap := by
  have hfinite (m n : Nat) (d e : Int) :
      (compare e d).then (compare n m) = ((compare d e).then (compare m n)).swap := by
    rw [Ordering.swap_then, ← Std.OrientedCmp.eq_swap, ← Std.OrientedCmp.eq_swap]
  rcases x with ⟨_ | _⟩ | _ | ⟨_ | _⟩ | ⟨_ | _, m, d, _⟩ <;> rcases y with ⟨_ | _⟩ | _ | ⟨_ | _⟩ | ⟨_ | _, n, e, _⟩ <;>
    first
      | rfl
      | exact congrArg some (hfinite m n d e)
      | exact congrArg some (congrArg Ordering.swap (hfinite m n d e))

theorem compare_eq_none : x.compare y = none ↔ x.isNaN = true ∨ y.isNaN = true := by
  rcases x with ⟨_ | _⟩ | _ | ⟨_ | _⟩ | ⟨_ | _, _, _, _⟩ <;> rcases y with ⟨_ | _⟩ | _ | ⟨_ | _⟩ | ⟨_ | _, _, _, _⟩ <;>
    simp [UnpackedFloat.compare, UnpackedFloat.isNaN]

theorem lt_iff_compare {x y : Float} : x < y ↔ x.toModel.compare y.toModel = some .lt := by
  show x.lt y = true ↔ _
  unfold Float.lt
  rw [decide_eq_true_iff]
  show x.toModel.lt y.toModel = true ↔ _
  unfold Float.Model.lt UnpackedFloat.lt
  rw [beq_iff_eq]
  rfl

theorem beq_iff_compare {x y : Float} : (x == y) = true ↔ x.toModel.compare y.toModel = some .eq := by
  show x.toModel.beq y.toModel = true ↔ _
  unfold Float.Model.beq UnpackedFloat.beq
  rw [beq_iff_eq]
  rfl

/-- Decimals have the order of the floating-point standard. -/
theorem floatOrder?_eq_compare (x y : Float) : Value.floatOrder? x y = x.toModel.compare y.toModel := by
  have hswap : y.toModel.compare x.toModel = (x.toModel.compare y.toModel).map Ordering.swap := compare_swap ..
  unfold Value.floatOrder?
  simp only [lt_iff_compare, beq_iff_compare, hswap]
  rcases x.toModel.compare y.toModel with _ | (_ | _ | _) <;> rfl

theorem floatOrder?_eq_none {x y : Float} : Value.floatOrder? x y = none ↔ x.isNaN = true ∨ y.isNaN = true := by
  rw [floatOrder?_eq_compare]
  exact compare_eq_none

/-! ## Decimals that are numbers -/

/-- No number has all bits of the exponent and some of the mantissa. -/
theorem isNaN_unpack (b : BitVec Format.binary64.numBits) : (unpack Format.binary64 b).isNaN = true ↔
    UnpackedFloat.unpackExponent b = -1#_ ∧ UnpackedFloat.unpackMantissa b ≠ 0#_ := by
  unfold unpack
  simp only
  split_ifs with hexponent hmantissa
  · simp [UnpackedFloat.isNaN, hmantissa]
  · simp [UnpackedFloat.isNaN, hmantissa, hexponent]
  all_goals exact iff_of_false Bool.false_ne_true fun h => hexponent h.1

theorem isNaN_pack (f : UnpackedFloat) : (Float.Model.pack f).isNaN = f.isNaN := by
  show (unpack Format.binary64 (pack Format.binary64 f)).isNaN = _
  rw [Bool.eq_iff_iff, isNaN_unpack]
  fun_cases pack Format.binary64 f with
  | case1 => decide
  | case2 s => simp [UnpackedFloat.packedInfinity, UnpackedFloat.isNaN]
  | case3 s => simp [UnpackedFloat.packedZero, UnpackedFloat.isNaN]
  | case4 s m e hm biased hfits => simp [UnpackedFloat.packedInfinity, UnpackedFloat.isNaN]
  | case5 s m e hm bits biased hfits hbits =>
    -- A normal number that fits does not have the greatest exponent.
    have hfits : ¬ 2048 ≤ biased + 1 := hfits
    have hexponent : biased % 2048 ≠ 2047 := by omega
    simp [UnpackedFloat.isNaN, ← BitVec.toNat_inj, hexponent]
  | case6 s m e hm bits biased hfits hbits => simp [UnpackedFloat.isNaN]

theorem isNaN_round (f : Format) (s : UnpackedFloat.Sign) (m : Nat) (e : Int) (a : UnpackedFloat.Accuracy) :
    (UnpackedFloat.roundWithAccuracy f s m e a).isNaN = false := by
  unfold UnpackedFloat.roundWithAccuracy
  simp only
  split <;> rfl

theorem isNaN_mul {s : UnpackedFloat.Sign} {m : Nat} {e : Int} {hm : 0 < m} (hx : x.isNaN = false)
    (hy : y = .finite s m e hm) : (UnpackedFloat.mul Format.binary64 x y).isNaN = false := by
  subst hy
  cases x with
  | notANumber => cases hx
  | infinity | zero => rfl
  | finite => exact isNaN_round ..

theorem isNaN_ofScientific (m : Nat) (e : Int) :
    (UnpackedFloat.ofScientific Format.binary64 m e).isNaN = false := by
  unfold UnpackedFloat.ofScientific
  split_ifs
  · rfl
  · rfl
  · rfl
  · exact isNaN_round ..
  · exact isNaN_round ..

theorem isNaN_toFloat (n : UInt64) : n.toFloat.isNaN = false := by
  show (Float.Model.pack (UnpackedFloat.ofInt _ _)).isNaN = false
  rw [isNaN_pack]
  unfold UnpackedFloat.ofInt UnpackedFloat.normalize UnpackedFloat.round
  split <;> first | exact isNaN_round .. | rfl

theorem isNaN_mul_one {x : Float} (hx : x.isNaN = false) : (x * Float.ofBits 0x3FF0000000000000).isNaN = false := by
  have hone : ∃ s m e hm, (Float.ofBits 0x3FF0000000000000).toModel.unpack = .finite s m e hm := ⟨_, _, _, _, rfl⟩
  obtain ⟨s, m, e, hm, hone⟩ := hone
  show (Float.Model.pack (UnpackedFloat.mul _ x.toModel.unpack _)).isNaN = false
  rw [isNaN_pack]
  exact isNaN_mul hx hone

theorem isNaN_ofNat (n : Nat) : (Float.ofNat n).isNaN = false := by
  -- A small number is multiplied by ten to the zero, which stands in a table.
  have hone (h : 0 < Float.exactlyRepresentablePowersOfTen.size) :
      Float.exactlyRepresentablePowersOfTen[0] = Float.ofBits 0x3FF0000000000000 := rfl
  unfold Float.ofNat OfScientific.ofScientific instOfScientificFloat Float.ofScientific
  simp only [Bool.false_eq_true, if_false]
  split_ifs with hsmall
  · rw [hone]
    exact isNaN_mul_one (isNaN_toFloat _)
  · show (Float.Model.pack _).isNaN = false
    rw [isNaN_pack]
    exact isNaN_ofScientific ..

theorem isNaN_neg (x : Float) : x.neg.isNaN = x.isNaN := by
  show (Float.Model.pack x.toModel.unpack.neg).isNaN = x.toModel.unpack.isNaN
  rw [isNaN_pack]
  cases x.toModel.unpack <;> rfl

/-- The decimal view of an integer is a number. -/
theorem isNaN_ofInt (n : Int) : (Float.ofInt n).isNaN = false := by
  cases n with
  | ofNat n => exact isNaN_ofNat n
  | negSucc n => exact (isNaN_neg _).trans (isNaN_ofNat _)

end Decimal

/-! ## Comparable values -/

namespace Value

/-- A value without a place among the numbers: a text that is no number, or the decimal that is none. -/
def isStray (v : Value) : Bool := v.toFloat?.all Float.isNaN

/-- Two texts, or two values that have a place among the numbers. -/
def comparable (a b : Value) : Bool := a.isText && b.isText || !a.isStray && !b.isStray

@[simp] theorem isStray_int (n : Int64) : (int n).isStray = false := Decimal.isNaN_ofInt n.toInt

@[simp] theorem isStray_bool (b : Bool) : (bool b).isStray = false := by
  cases b <;> decide +kernel

/-- The order of the decimal views. -/
def decimalOrder? (a b : Value) : Option Ordering := do floatOrder? (← a.toFloat?) (← b.toFloat?)

theorem isSome_decimalOrder? (a b : Value) : (a.decimalOrder? b).isSome = (!a.isStray && !b.isStray) := by
  unfold decimalOrder? isStray
  cases a.toFloat? with
  | none => rfl
  | some x =>
    cases b.toFloat? with
    | none => exact (Bool.and_false _).symm
    | some y =>
      show (floatOrder? x y).isSome = (!x.isNaN && !y.isNaN)
      rw [Bool.eq_iff_iff, Option.isSome_iff_ne_none, ne_eq, Decimal.floatOrder?_eq_none]
      simp

/-- Two values have an order just if they are comparable. -/
theorem isSome_order? (a b : Value) : (a.order? b).isSome = a.comparable b := by
  cases a <;> cases b
  case str.str => rfl
  case int.int => exact (by simp [comparable, order?])
  all_goals exact (isSome_decimalOrder? _ _).trans (by simp [comparable, isText])

end Value

/-! ## Negation -/

namespace Relation

variable {a b : Value}

/-- Equality and its negation. -/
def isEquality : Relation → Bool
  | eq | ne => true
  | _ => false

theorem isEquality_negate (r : Relation) : r.negate.isEquality = r.isEquality := by
  cases r <;> rfl

/-- Of values without an order, only `ne` holds. -/
theorem holds_incomparable (r : Relation) (h : a.comparable b = false) : r.holds a b = decide (r = .ne) := by
  have horder : a.order? b = none := by
    rw [← Value.isSome_order?] at h
    exact Option.isNone_iff_eq_none.mp (Option.isSome_eq_false_iff.mp h)
  cases r <;> simp [holds, Value.looselyEqual, horder]

theorem negate_holds_of_comparable (r : Relation) (h : a.comparable b = true) : r.negate.holds a b = !r.holds a b := by
  rw [← Value.isSome_order?] at h
  obtain ⟨o, horder⟩ := Option.isSome_iff_exists.mp h
  cases r <;> cases o <;> simp [negate, holds, Value.looselyEqual, horder]

theorem negate_holds_of_isEquality {r : Relation} (hr : r.isEquality = true) (a b : Value) :
    r.negate.holds a b = !r.holds a b := by
  cases r with
  | eq => rfl
  | ne => exact (Bool.not_not _).symm
  | _ => cases hr

/-- **The negation of a relation holds just if the relation does not, where the values are comparable or the relation is
an equality.** Nowhere else. -/
theorem negate_holds_iff (r : Relation) (a b : Value) :
    r.negate.holds a b = (!r.holds a b) ↔ a.comparable b = true ∨ r.isEquality = true := by
  constructor
  · intro hnegate
    by_contra hneither
    obtain ⟨hcomparable, hequality⟩ := not_or.mp hneither
    rw [Bool.not_eq_true] at hcomparable
    rw [holds_incomparable _ hcomparable, holds_incomparable _ hcomparable] at hnegate
    cases r <;> first | exact hequality rfl | cases hnegate
  · rintro (hcomparable | hequality)
    · exact negate_holds_of_comparable r hcomparable
    · exact negate_holds_of_isEquality hequality a b

end Relation

/-! ## Conditional jumps -/

/-- On line `k` the operands are compared, and the jump behind leads to line `x` where `r` holds. -/
structure Tests (p : Program) (k : Nat) (left right : String) (r : Relation) (x : Nat) : Prop where
  compares : p.lines[k]? = some (.ok (.compare left right))
  jumps : ∃ name, p.lines[k + 1]? = some (.ok (.jumpIf r name)) ∧ p.lineOf? name = some x

/-- The scene where a test has led to line `k`. -/
def Machine.Scene.tested (a : Scene) (k : Nat) : Scene :=
  { a with state := { a.state with pc := k, register := none } }

theorem Tests.goes {p : Program} {k x : Nat} {left right : String} {r : Relation} (h : Tests p k left right r x)
    {a : Scene} (ha : a.state.pc = k) :
    Goes p 2 a
      (a.tested (if r.holds (a.state.store.resolve left) (a.state.store.resolve right) then x else k + 2)) := by
  subst ha
  obtain ⟨hcompares, name, hjumps, hx⟩ := h
  refine (Goes.compare hcompares).trans (.one ?_)
  simp only [Program.after?, Program.step, hjumps, Program.execute, Option.getD_some, Scene.tested]
  split_ifs with hholds
  · simp only [Program.jump, hx]
  · rfl

/-- **Main result.** The negation of a relation holds of two values exactly when the relation does not, if the values
are comparable or the relation is an equality. Of other values only `ne` holds. So where the same values are compared
before the false jump of an operator and before its true jump, the one is taken just if the other is not, unless the
operator asks for an order and the values have none. Then neither is taken. -/
theorem jump_polarity (r : Relation) (u v : Value) :
    ((r.negate.holds u v = true ↔ r.holds u v = false) ↔ (u.comparable v = true ∨ r.isEquality = true)) ∧
    (u.comparable v = false → (r.holds u v = true ↔ r = .ne)) ∧
    ∀ (op : Operator) (p q : Program) (k j x y : Nat) (left right : String) (a b : Scene), op.relation = r →
      Tests p k left right op.falseJump x → a.state.pc = k → Tests q j left right op.trueJump y → b.state.pc = j →
      a.state.store = b.state.store → b.state.store.resolve left = u → b.state.store.resolve right = v →
      (u.comparable v = true ∨ r.isEquality = true →
        Goes p 2 a (a.tested (if r.holds u v then k + 2 else x)) ∧
          Goes q 2 b (b.tested (if r.holds u v then y else j + 2))) ∧
      (u.comparable v = false → r.isEquality = false →
        Goes p 2 a (a.tested (k + 2)) ∧ Goes q 2 b (b.tested (j + 2))) := by
  refine ⟨?_, fun h => ?_, ?_⟩
  · rw [← Relation.negate_holds_iff]
    cases r.negate.holds u v <;> cases r.holds u v <;> decide
  · rw [Relation.holds_incomparable r h, decide_eq_true_iff]
  · intro op p q k j x y left right a b hr hp ha hq hb hstore hu hv
    have hfalse := hp.goes ha
    have htrue := hq.goes hb
    rw [hstore, hu, hv, Operator.falseJump, hr] at hfalse
    rw [hu, hv, Operator.trueJump, hr] at htrue
    refine ⟨fun hlaw => ⟨?_, htrue⟩, fun hcomparable hequality => ?_⟩
    · rw [(Relation.negate_holds_iff r u v).mpr hlaw] at hfalse
      cases hholds : r.holds u v with
      | true => rwa [hholds] at hfalse
      | false => rwa [hholds] at hfalse
    · have hneither (r : Relation) (hr : r.isEquality = false) : r.holds u v = false := by
        rw [Relation.holds_incomparable r hcomparable]
        cases r <;> first | rfl | cases hr
      rw [hneither r hequality] at htrue
      rw [hneither r.negate ((Relation.isEquality_negate r).trans hequality)] at hfalse
      exact ⟨hfalse, htrue⟩

/-- The false jump and the true jump of `<.`, behind one comparison each. -/
def bothJumps : Program := .ofText "CMP x, 2\nJGE out\nCMP x, 2\nJL out\nRET\nout:"

theorem tests_bothJumps : Tests bothJumps 0 "x" "2" .ge 5 ∧ Tests bothJumps 2 "x" "2" .lt 5 :=
  ⟨⟨by decide +kernel, "out", by decide +kernel, by decide +kernel⟩,
    ⟨by decide +kernel, "out", by decide +kernel, by decide +kernel⟩⟩

/-- Before line `k`, with a value for `x`. -/
def holdingX (v : Value) (k : Nat) : Scene := ⟨⟨k, none, [], ⟨[("x", v)]⟩⟩, [], []⟩

/-- Five is not below two, so the false jump is taken and the true jump is not. A word is not comparable with two, so
neither is taken. -/
theorem jump_polarity_bothJumps :
    (Goes bothJumps 2 (holdingX (.int 5) 0) (holdingX (.int 5) 5) ∧
      Goes bothJumps 2 (holdingX (.int 5) 2) (holdingX (.int 5) 4)) ∧
    (Goes bothJumps 2 (holdingX (.str "abc") 0) (holdingX (.str "abc") 2) ∧
      Goes bothJumps 2 (holdingX (.str "abc") 2) (holdingX (.str "abc") 4)) := by
  obtain ⟨hfalse, htrue⟩ := tests_bothJumps
  have hfive := (jump_polarity .lt (.int 5) (.int 2)).2.2 (.compare .lt) bothJumps bothJumps 0 2 5 5 "x" "2"
    (holdingX (.int 5) 0) (holdingX (.int 5) 2) rfl hfalse rfl htrue rfl rfl (by decide +kernel) (by decide +kernel)
  have hword := (jump_polarity .lt (.str "abc") (.int 2)).2.2 (.compare .lt) bothJumps bothJumps 0 2 5 5 "x" "2"
    (holdingX (.str "abc") 0) (holdingX (.str "abc") 2) rfl hfalse rfl htrue rfl rfl (by decide +kernel)
    (by decide +kernel)
  have hholds : Relation.holds .lt (.int 5) (.int 2) = false := by decide +kernel
  obtain ⟨hgoes, hgoes'⟩ := hfive.1 (.inl (by decide +kernel))
  rw [hholds] at hgoes hgoes'
  exact ⟨⟨hgoes, hgoes'⟩, hword.2 (by decide +kernel) rfl⟩

/-- A body that is repeated while a word is below one, and a body that is left out unless it is. -/
def wordBelowOne : String := "last \x7b printO(1); \x7d wish (\"abc\" <. 1); oye (\"abc\" <. 1) \x7b printO(2); \x7d"

/-- **The word is not below one, and its body is not left out.** The true jump of the first condition is not taken, and
neither is the false jump of the same condition. -/
theorem word_not_below_one :
    (analyze wordBelowOne).diagnostics = [] ∧ Relation.holds .lt (.str "abc") (.int 1) = false ∧
      Relation.lt.negate.holds (.str "abc") (.int 1) = false ∧
      (((analyze wordBelowOne).program.run 100).replay []).events = [.print "1", .print "2"] ∧
      (((analyze wordBelowOne).program.run 100).replay []).result = .ok () := by
  refine ⟨?_, ?_, ?_, ?_, ?_⟩ <;> decide +kernel

end Dotlang
