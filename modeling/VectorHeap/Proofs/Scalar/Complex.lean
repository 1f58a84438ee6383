import VectorHeap.Scalar.Complex
import VectorHeap.Proofs.Text.Decimal
import Mathlib.Data.Nat.Bitwise

/-! Texts of complex numbers. The parts are joined by one sign, unless the imaginary part is a negative
zero, which keeps its own after the plus. A text is of one number, so long as neither part is a NaN. -/
namespace VectorHeap

namespace Double

def abs (x : Double) : Double := ⟨x.magnitude⟩

theorem toNat_magnitude (x : Double) : x.magnitude.toNat = x.bits.toNat % 2 ^ 63 := by
  rw [magnitude, UInt64.toNat_and]
  exact Nat.and_two_pow_sub_one_eq_mod _ 63

theorem signBit_eq (x : Double) : x.signBit = x.bits.toNat.testBit 63 := by
  have bit : (x.bits &&& 0x8000000000000000).toNat = (x.bits.toNat.testBit 63).toNat * 2 ^ 63 := by
    rw [UInt64.toNat_and]
    exact Nat.and_two_pow _ 63
  cases set : x.bits.toNat.testBit 63 with
  | true =>
    rw [set] at bit
    refine bne_iff_ne.mpr (fun zero => ?_)
    rw [zero, UInt64.toNat_zero, Bool.toNat_true] at bit
    omega
  | false =>
    rw [set, Bool.toNat_false, Nat.zero_mul, ← UInt64.toNat_zero] at bit
    rw [signBit, UInt64.toNat_inj.mp bit]
    rfl

theorem eq_of_parts {x y : Double} (size : x.magnitude = y.magnitude) (sign : x.signBit = y.signBit) :
    x = y := by
  have low := congrArg UInt64.toNat size
  rw [toNat_magnitude, toNat_magnitude] at low
  rw [signBit_eq, signBit_eq, Nat.testBit_eq_decide_div_mod_eq, Nat.testBit_eq_decide_div_mod_eq,
    decide_eq_decide] at sign
  have hx := x.bits.toNat_lt
  have hy := y.bits.toNat_lt
  have same : x.bits.toNat = y.bits.toNat := by omega
  cases x
  cases y
  exact congrArg Double.mk (UInt64.toNat_inj.mp same)

theorem magnitude_abs (x : Double) : x.abs.magnitude = x.magnitude := by
  rw [magnitude, abs, magnitude, UInt64.and_assoc, UInt64.and_self]

theorem signBit_abs (x : Double) : x.abs.signBit = false := by
  have apart : (0x7FFFFFFFFFFFFFFF &&& 0x8000000000000000 : UInt64) = 0 := rfl
  rw [signBit, abs, magnitude, UInt64.and_assoc, apart, UInt64.and_zero]
  rfl

theorem magnitude_neg (x : Double) : x.neg.magnitude = x.magnitude := by
  rw [← UInt64.toNat_inj, magnitude, neg, magnitude, UInt64.toNat_and, UInt64.toNat_and, UInt64.toNat_xor,
    Nat.and_xor_distrib_right]
  exact Nat.xor_zero _

theorem signBit_neg (x : Double) : x.neg.signBit = !x.signBit := by
  rw [signBit_eq, signBit_eq, neg, UInt64.toNat_xor, Nat.testBit_xor]
  exact Bool.xor_true _

theorem neg_eq_abs {x : Double} (signed : x.signBit = true) : x.neg = x.abs := by
  refine eq_of_parts ((magnitude_neg x).trans (magnitude_abs x).symm) ?_
  rw [signBit_neg, signBit_abs, signed]
  rfl

theorem abs_of_signBit {x : Double} (unsigned : x.signBit = false) : x.abs = x :=
  eq_of_parts (magnitude_abs x) ((signBit_abs x).trans unsigned.symm)

theorem neg_injective {x y : Double} (same : x.neg = y.neg) : x = y := by
  refine eq_of_parts ?_ ?_
  · rw [← magnitude_neg x, ← magnitude_neg y, same]
  · have opposite : (!x.signBit) = !y.signBit := by rw [← signBit_neg, ← signBit_neg, same]
    exact Bool.not_inj opposite

/-- Only a negative zero has a sign bit and is not below zero. -/
theorem isNegative_eq {x : Double} (some : x ≠ zero.neg) : x.isNegative = (x.signBit && !x.isNaN) := by
  have nonzero : x.signBit = true → x.magnitude ≠ 0 := fun signed none =>
    some (eq_of_parts none signed)
  rw [isNegative]
  cases sign : x.signBit with
  | false => rfl
  | true => rw [bne_iff_ne.mpr (nonzero sign), Bool.and_true]

theorem isNaN_of_magnitude_eq {x y : Double} (size : x.magnitude = y.magnitude) : x.isNaN = y.isNaN := by
  rw [isNaN, isNaN, size]

end Double

namespace Decimal

theorem ofDouble_nan {x : Double} (none : x.isNaN = true) : ofDouble x = "NaN" := by
  rw [ofDouble, if_pos none]

theorem ofDouble_toList {x : Double} (some : x.isNaN = false) :
    (ofDouble x).toList = (if x.signBit then ['-'] else []) ++ (ofMagnitude x).toList := by
  rw [ofDouble, some, if_neg (by decide)]
  cases x.signBit
  · rfl
  · exact String.toList_append

theorem ofDouble_abs_unsigned (x : Double) : ∀ c ∈ (ofDouble x.abs).toList, isSign c = false := by
  cases nan : x.abs.isNaN with
  | true =>
    rw [ofDouble_nan nan]
    simp [isSign]
  | false =>
    rw [ofDouble_toList nan, Double.signBit_abs]
    exact ofMagnitude_unsigned nan

section
variable {x y : Double} (hx : x.isNaN = false) (hy : y.isNaN = false)
include hx hy

theorem ofDouble_append {s s' : Char} {rest rest' : List Char} (hs : isSign s = true)
    (hs' : isSign s' = true)
    (same : (ofDouble x).toList ++ s :: rest = (ofDouble y).toList ++ s' :: rest') :
    x = y ∧ s = s' ∧ rest = rest' := by
  -- a text that begins with a sign is of a number with a sign
  have apart : ∀ {z : Double} {text rest : List Char}, z.isNaN = false →
      '-' :: text ≠ (ofMagnitude z).toList ++ rest := by
    intro z text rest hz same
    cases digits : (ofMagnitude z).toList with
    | nil => exact ofMagnitude_ne_nil z digits
    | cons c cs =>
      rw [digits, List.cons_append, List.cons.injEq] at same
      have unsigned := ofMagnitude_unsigned hz c (by rw [digits]; exact List.mem_cons_self)
      rw [← same.1] at unsigned
      exact absurd unsigned (by decide)
  have split : (ofMagnitude x).toList ++ s :: rest = (ofMagnitude y).toList ++ s' :: rest' →
      x.signBit = y.signBit → x = y ∧ s = s' ∧ rest = rest' := by
    intro same sign
    have digits : ∀ {z : Double}, z.isNaN = false → ∀ c ∈ (ofMagnitude z).toList, (!isSign c) = true :=
      fun hz c mem => congrArg not (ofMagnitude_unsigned hz c mem)
    obtain ⟨taken, dropped⟩ := takeWhile_append_cons (digits hx) (congrArg not hs) rest
    obtain ⟨taken', dropped'⟩ := takeWhile_append_cons (digits hy) (congrArg not hs') rest'
    have text := taken.symm.trans ((congrArg _ same).trans taken')
    have left := dropped.symm.trans ((congrArg _ same).trans dropped')
    have size := ofMagnitude_injective hx hy (String.toList_inj.mp text)
    exact ⟨Double.eq_of_parts size sign, List.cons.inj left⟩
  rw [ofDouble_toList hx, ofDouble_toList hy] at same
  cases sx : x.signBit with
  | true =>
    cases sy : y.signBit with
    | true =>
      rw [sx, sy] at same
      exact split (List.cons.inj same).2 (sx.trans sy.symm)
    | false =>
      rw [sx, sy] at same
      exact absurd same (apart hy)
  | false =>
    cases sy : y.signBit with
    | true =>
      rw [sx, sy] at same
      exact absurd same.symm (apart hx)
    | false =>
      rw [sx, sy] at same
      exact split same (sx.trans sy.symm)

theorem ofDouble_injective (same : ofDouble x = ofDouble y) : x = y := by
  have text : (ofDouble x).toList ++ ['+'] = (ofDouble y).toList ++ ['+'] := by rw [same]
  exact (ofDouble_append hx hy rfl rfl text).1

end

end Decimal

namespace Complex

variable {z w : Complex}

theorem display_toList (given : z.isNA = false) :
    z.display.toList = (Decimal.ofDouble z.re).toList ++ (if z.im.isNegative then '-' else '+') ::
      ((Decimal.ofDouble (if z.im.isNegative then z.im.neg else z.im)).toList ++ ['i']) := by
  rw [display, given, if_neg (by decide)]
  cases z.im.isNegative with
  | true => simp only [if_true, String.toList_append, List.append_assoc]; rfl
  | false => simp only [Bool.false_eq_true, if_false, String.toList_append, List.append_assoc]; rfl

theorem display_abs (given : z.isNA = false) (some : z.im ≠ Double.zero.neg) :
    z.display = Decimal.ofDouble z.re ++ (if z.im.signBit && !z.im.isNaN then "-" else "+") ++
      Decimal.ofDouble z.im.abs ++ "i" := by
  rw [display, given, if_neg (by decide), Double.isNegative_eq some]
  cases sign : z.im.signBit with
  | false => rw [Double.abs_of_signBit sign]; rfl
  | true =>
    cases nan : z.im.isNaN with
    | false => rw [Double.neg_eq_abs sign]; rfl
    | true =>
      rw [Decimal.ofDouble_nan nan,
        Decimal.ofDouble_nan ((Double.isNaN_of_magnitude_eq (Double.magnitude_abs z.im)).trans nan)]
      rfl

/-- Complex numbers whose parts are no NaNs and that print the same are the same. -/
theorem display_injective (hz : z.re.isNaN = false ∧ z.im.isNaN = false)
    (hw : w.re.isNaN = false ∧ w.im.isNaN = false) (same : z.display = w.display) : z = w := by
  have given : ∀ {z : Complex}, z.re.isNaN = false → z.isNA = false := by
    intro z some
    rw [isNA, Double.isNA, some]
    rfl
  have text := congrArg String.toList same
  rw [display_toList (given hz.1), display_toList (given hw.1)] at text
  obtain ⟨re, sign, left⟩ :=
    Decimal.ofDouble_append hz.1 hw.1 (by split <;> rfl) (by split <;> rfl) text
  have second := String.toList_inj.mp (List.append_cancel_right left)
  have im : z.im = w.im := by
    cases below : z.im.isNegative with
    | true =>
      cases below' : w.im.isNegative with
      | true =>
        rw [below, below', if_pos rfl, if_pos rfl] at second
        refine Double.neg_injective (Decimal.ofDouble_injective ?_ ?_ second)
        · exact (Double.isNaN_of_magnitude_eq (Double.magnitude_neg z.im)).trans hz.2
        · exact (Double.isNaN_of_magnitude_eq (Double.magnitude_neg w.im)).trans hw.2
      | false =>
        rw [below, below'] at sign
        exact absurd sign (by decide)
    | false =>
      cases below' : w.im.isNegative with
      | true =>
        rw [below, below'] at sign
        exact absurd sign (by decide)
      | false =>
        rw [below, below'] at second
        exact Decimal.ofDouble_injective hz.2 hw.2 second
  cases z
  cases w
  exact congrArg₂ Complex.mk re im

/-- A complex number that is not missing prints its real part, a minus if the imaginary part is no NaN and
has its sign bit set and a plus otherwise, the magnitude of the imaginary part, which has no sign of its
own, and an i, unless the imaginary part is a negative zero: that prints its own minus after the plus. No
two of them without NaN parts print the same. -/
theorem display_parts {z : Complex} (given : z.isNA = false) :
    (z.im ≠ Double.zero.neg → z.display = Decimal.ofDouble z.re ++
      (if z.im.signBit && !z.im.isNaN then "-" else "+") ++ Decimal.ofDouble z.im.abs ++ "i") ∧
    (z.im = Double.zero.neg → z.display = Decimal.ofDouble z.re ++ "+-0i") ∧
    (∀ c ∈ (Decimal.ofDouble z.im.abs).toList, Decimal.isSign c = false) ∧
    ∀ w : Complex, z.re.isNaN = false ∧ z.im.isNaN = false → w.re.isNaN = false ∧ w.im.isNaN = false →
      z.display = w.display → z = w := by
  refine ⟨display_abs given, fun zero => ?_, Decimal.ofDouble_abs_unsigned z.im,
    fun w hz hw same => display_injective hz hw same⟩
  have text : Decimal.ofDouble Double.zero.neg = "-0" := by decide
  have join : Double.zero.neg.isNegative = false := by decide
  rw [display, given, if_neg (by decide), zero, join, if_neg (by decide), text, String.append_assoc,
    String.append_assoc]
  rfl

theorem display_parts_of_negative :
    ∃ z : Complex, z.isNA = false ∧ z.im ≠ Double.zero.neg ∧ z.display = "-0-0.1i" := by
  let z : Complex := ⟨Double.zero.neg, ⟨0xBFB999999999999A⟩⟩
  have given : z.isNA = false := by decide
  have some : z.im ≠ Double.zero.neg := by decide
  exact ⟨z, given, some, ((display_parts given).1 some).trans (by decide +kernel)⟩

/-- Two signs join the parts of one minus zero times i. -/
theorem display_two_signs :
    ∃ z : Complex, z.isNA = false ∧ z.im.signBit = true ∧ z.im.isNaN = false ∧ z.display = "1+-0i" ∧
      z.display ≠ Decimal.ofDouble z.re ++ "-" ++ Decimal.ofDouble z.im.abs ++ "i" :=
  ⟨⟨⟨0x3FF0000000000000⟩, Double.zero.neg⟩, by decide +kernel⟩

end Complex

end VectorHeap
