import VectorHeap.Text.Decimal
import Mathlib.Algebra.Order.Field.Rat
import Mathlib.Data.List.TakeWhile
import Mathlib.Tactic.Positivity
import Mathlib.Tactic.Ring

/-! Decimal text of doubles. The digits of a text stand for a number that rounds to the double, and a
number rounds to one double only, so that no two of them have the same text. -/
namespace VectorHeap.Decimal

def number (d : Nat) (place : Int) : ℚ := d * 10 ^ place

namespace Finite

/-! ### Numbers that round to a double -/

def low (v : Finite) : ℚ :=
  ((4 * v.significand - if v.halfGapBelow then 1 else 2 : ℕ) : ℚ) * 2 ^ (v.exponent - 2)

def high (v : Finite) : ℚ := ((4 * v.significand + 2 : ℕ) : ℚ) * 2 ^ (v.exponent - 2)

/-- A number that rounds to the value. The ends belong to the interval iff the significand is even. -/
structure Reads (v : Finite) (x : ℚ) : Prop where
  above : v.low ≤ x
  below : x ≤ v.high
  inner : v.significand % 2 ≠ 0 → v.low ≠ x ∧ x ≠ v.high

/-! ### Grids -/

/-- What a number at the place is a multiple of, on a common scale with quarters of the last bit. -/
def unit (v : Finite) (place : Int) : Nat :=
  (1 <<< (-(v.exponent - 2)).toNat) * Nat.pow 10 place.toNat

def scale (v : Finite) (place : Int) : Nat :=
  (1 <<< (v.exponent - 2).toNat) * Nat.pow 10 (-place).toNat

def inside (v : Finite) (place : Int) (d : Nat) : Bool :=
  let low := (4 * v.significand - if v.halfGapBelow then 1 else 2) * v.scale place
  let high := (4 * v.significand + 2) * v.scale place
  if v.significand % 2 = 0 then low ≤ d * v.unit place && d * v.unit place ≤ high
  else low < d * v.unit place && d * v.unit place < high

theorem onGrid_eq (v : Finite) (place : Int) :
    v.onGrid place =
      (let value := 4 * v.significand * v.scale place
       let below := value / v.unit place
       match v.inside place below, v.inside place (below + 1) with
       | true, true => some (if 2 * (value % v.unit place) < v.unit place then below else below + 1)
       | true, false => some below
       | false, true => some (below + 1)
       | false, false => none) := rfl

theorem pow_toNat (b : ℚ) (some : b ≠ 0) (i : Int) : b ^ i * b ^ (-i).toNat = b ^ i.toNat := by
  rw [← zpow_natCast b (-i).toNat, ← zpow_natCast b i.toNat, ← zpow_add₀ some]
  congr 1
  omega

theorem scale_mul (v : Finite) (place : Int) :
    (v.scale place : ℚ) * 10 ^ place = v.unit place * 2 ^ (v.exponent - 2) := by
  have two := pow_toNat 2 (by decide) (v.exponent - 2)
  have ten := pow_toNat 10 (by decide) place
  simp only [scale, unit, Nat.one_shiftLeft, Nat.pow_eq, Nat.cast_mul, Nat.cast_pow, Nat.cast_ofNat]
  rw [← two, ← ten]
  ring

theorem unit_pos (v : Finite) (place : Int) : 0 < (v.unit place : ℚ) := by
  simp only [unit, Nat.one_shiftLeft, Nat.pow_eq]
  exact_mod_cast Nat.mul_pos (Nat.two_pow_pos _) (Nat.pow_pos (by decide))

theorem scaled_part (v : Finite) (place : Int) (a : Nat) :
    ((a * v.scale place : ℕ) : ℚ) * 10 ^ place = v.unit place * (a * 2 ^ (v.exponent - 2)) := by
  rw [Nat.cast_mul, mul_assoc, scale_mul]
  ring

theorem scaled_number (v : Finite) (place : Int) (d : Nat) :
    ((d * v.unit place : ℕ) : ℚ) * 10 ^ place = v.unit place * number d place := by
  rw [Nat.cast_mul, number]
  ring

section
variable {v : Finite} {place : Int} {a d : Nat}

theorem part_le_number :
    a * v.scale place ≤ d * v.unit place ↔ (a : ℚ) * 2 ^ (v.exponent - 2) ≤ number d place := by
  rw [← Nat.cast_le (α := ℚ), ← mul_le_mul_iff_left₀ (zpow_pos (by decide : (0 : ℚ) < 10) place),
    scaled_part, scaled_number, mul_le_mul_iff_right₀ (v.unit_pos place)]

theorem number_le_part :
    d * v.unit place ≤ a * v.scale place ↔ number d place ≤ (a : ℚ) * 2 ^ (v.exponent - 2) := by
  rw [← Nat.cast_le (α := ℚ), ← mul_le_mul_iff_left₀ (zpow_pos (by decide : (0 : ℚ) < 10) place),
    scaled_part, scaled_number, mul_le_mul_iff_right₀ (v.unit_pos place)]

theorem inside_iff : v.inside place d = true ↔ v.Reads (number d place) := by
  unfold inside
  dsimp only
  split
  · rename_i even
    rw [Bool.and_eq_true, decide_eq_true_iff, decide_eq_true_iff, part_le_number, number_le_part]
    exact ⟨fun ends => ⟨ends.1, ends.2, fun odd => absurd even odd⟩, fun R => ⟨R.above, R.below⟩⟩
  · rename_i odd
    rw [Bool.and_eq_true, decide_eq_true_iff, decide_eq_true_iff, ← Nat.not_le, ← Nat.not_le,
      number_le_part, part_le_number, not_le, not_le]
    constructor
    · exact fun ends => ⟨ends.1.le, ends.2.le, fun _ => ⟨ends.1.ne, ends.2.ne⟩⟩
    · intro R
      obtain ⟨low, high⟩ := R.inner odd
      exact ⟨lt_of_le_of_ne R.above low, lt_of_le_of_ne R.below high⟩

theorem onGrid_reads (hit : v.onGrid place = some d) : v.Reads (number d place) := by
  rw [onGrid_eq] at hit
  dsimp only at hit
  split at hit
  · rename_i below above
    split at hit
    · cases hit; exact inside_iff.mp below
    · cases hit; exact inside_iff.mp above
  · rename_i below _
    cases hit; exact inside_iff.mp below
  · rename_i _ above
    cases hit; exact inside_iff.mp above
  · cases hit

theorem number_succ (d : Nat) (place : Int) : number (d + 1) place = number d place + 10 ^ place := by
  rw [number, number, Nat.cast_succ, add_mul, one_mul]

theorem high_eq (v : Finite) :
    v.high = ((4 * v.significand : ℕ) : ℚ) * 2 ^ (v.exponent - 2) + 2 ^ (v.exponent - 1) := by
  have half : (2 : ℚ) ^ (v.exponent - 1) = 2 ^ (v.exponent - 2) * 2 := by
    rw [← zpow_add_one₀ (by decide)]
    congr 1
    omega
  rw [high, half]
  push_cast
  ring

theorem low_lt (v : Finite) (some : v.significand ≠ 0) :
    v.low < ((4 * v.significand : ℕ) : ℚ) * 2 ^ (v.exponent - 2) := by
  refine mul_lt_mul_of_pos_right ?_ (zpow_pos (by decide) _)
  rw [Nat.cast_lt]
  split <;> omega

/-- On a grid finer than half the gap the next number above is a hit. -/
theorem onGrid_fine (some : v.significand ≠ 0) (fine : (10 : ℚ) ^ place < 2 ^ (v.exponent - 1)) :
    v.onGrid place ≠ none := by
  let below := 4 * v.significand * v.scale place / v.unit place
  have wide : 0 < v.unit place := Nat.cast_pos.mp (v.unit_pos place)
  have floor : number below place ≤ ((4 * v.significand : ℕ) : ℚ) * 2 ^ (v.exponent - 2) :=
    number_le_part.mp (Nat.div_mul_le_self _ _)
  have past : ((4 * v.significand : ℕ) : ℚ) * 2 ^ (v.exponent - 2) < number (below + 1) place := by
    rw [← not_le, ← number_le_part, Nat.not_le]
    exact Nat.lt_mul_of_div_lt (Nat.lt_succ_self below) wide
  have low := (v.low_lt some).trans past
  have high : number (below + 1) place < v.high := by
    rw [number_succ, high_eq]
    exact add_lt_add_of_le_of_lt floor fine
  have hit : v.inside place (below + 1) = true :=
    inside_iff.mpr ⟨low.le, high.le, fun _ => ⟨low.ne, high.ne⟩⟩
  rw [onGrid_eq]
  dsimp only
  rw [show v.inside place (4 * v.significand * v.scale place / v.unit place + 1) = true from hit]
  cases v.inside place (4 * v.significand * v.scale place / v.unit place) <;> exact nofun

theorem search_reads {n : Nat} (hit : ∃ k < n, v.onGrid (place - k) ≠ none) :
    v.Reads (number (v.search n place).1 (v.search n place).2) := by
  induction n generalizing place with
  | zero =>
    obtain ⟨k, none, _⟩ := hit
    omega
  | succ n ih =>
    unfold search
    cases here : v.onGrid place with
    | some d => exact onGrid_reads here
    | none =>
      refine ih ?_
      obtain ⟨k, lt, there⟩ := hit
      cases k with
      | zero => exact absurd here (by simpa using there)
      | succ k =>
        refine ⟨k, by omega, ?_⟩
        rwa [show place - 1 - (k : Int) = place - ((k + 1 : ℕ) : Int) by omega]

end

/-! ### Enough digits -/

/-- What a significand and an exponent are bounded by. -/
structure Bounded (v : Finite) : Prop where
  significand : v.significand < 2 * leadingBit
  above : -1074 ≤ v.exponent
  below : v.exponent ≤ 971

theorem ten_pow_le (k : Nat) : 10 ^ k ≤ 2 ^ ((10 * k + 2) / 3) := by
  have rest : ∀ r : Nat, r < 3 → 10 ^ r ≤ 2 ^ ((10 * r + 2) / 3) := by decide
  calc 10 ^ k = (10 ^ 3) ^ (k / 3) * 10 ^ (k % 3) := by rw [← pow_mul, ← pow_add, Nat.div_add_mod]
    _ ≤ (2 ^ 10) ^ (k / 3) * 2 ^ ((10 * (k % 3) + 2) / 3) :=
      Nat.mul_le_mul (Nat.pow_le_pow_left (by decide) _) (rest _ (Nat.mod_lt k (by decide)))
    _ = 2 ^ ((10 * k + 2) / 3) := by
      rw [← pow_mul, ← pow_add]
      congr 1
      omega

theorem le_ten_pow (k : Nat) : 2 ^ (33 * k / 10) ≤ 10 ^ k := by
  have rest : ∀ r : Nat, r < 10 → 2 ^ (33 * r / 10) ≤ 10 ^ r := by decide
  calc 2 ^ (33 * k / 10) = (2 ^ 33) ^ (k / 10) * 2 ^ (33 * (k % 10) / 10) := by
        rw [← pow_mul, ← pow_add]
        congr 1
        omega
    _ ≤ (10 ^ 10) ^ (k / 10) * 10 ^ (k % 10) :=
      Nat.mul_le_mul (Nat.pow_le_pow_left (by decide) _) (rest _ (Nat.mod_lt k (by decide)))
    _ = 10 ^ k := by rw [← pow_mul, ← pow_add, Nat.div_add_mod]

theorem ten_zpow_lt {place binary : Int} (up : 0 ≤ place → 10 * place + 2 < 3 * binary)
    (down : place < 0 → -33 * place ≥ 10 * (1 - binary)) :
    (10 : ℚ) ^ place < 2 ^ binary := by
  rcases Int.lt_or_le place 0 with negative | positive
  · obtain ⟨k, rfl⟩ : ∃ k : Nat, place = -k := ⟨(-place).toNat, by omega⟩
    have bits : -((33 * k / 10 : ℕ) : Int) < binary := by
      have := down negative
      omega
    calc (10 : ℚ) ^ (-(k : Int)) ≤ 2 ^ (-((33 * k / 10 : ℕ) : Int)) := by
          rw [zpow_neg, zpow_neg, zpow_natCast, zpow_natCast]
          refine inv_anti₀ (by positivity) ?_
          exact_mod_cast le_ten_pow k
      _ < 2 ^ binary := zpow_lt_zpow_right₀ (by decide) bits
  · obtain ⟨k, rfl⟩ : ∃ k : Nat, place = k := ⟨place.toNat, by omega⟩
    have bits : (((10 * k + 2) / 3 : ℕ) : Int) < binary := by
      have := up positive
      omega
    calc (10 : ℚ) ^ (k : Int) ≤ 2 ^ (((10 * k + 2) / 3 : ℕ) : Int) := by
          rw [zpow_natCast, zpow_natCast]
          exact_mod_cast ten_pow_le k
      _ < 2 ^ binary := zpow_lt_zpow_right₀ (by decide) bits

theorem log2_le {v : Finite} (B : v.Bounded) : v.significand.log2 ≤ 52 := by
  by_cases zero : v.significand = 0
  · rw [zero]
    decide
  · exact Nat.le_of_lt_succ ((Nat.log2_lt zero).mpr B.significand)

/-- The last grid that is tried is finer than half the gap. -/
theorem lastGrid_fine {v : Finite} (B : v.Bounded) :
    (10 : ℚ) ^ (v.topPlace - 21) < 2 ^ (v.exponent - 1) := by
  have size := log2_le B
  have above := B.above
  have below := B.below
  refine ten_zpow_lt (fun _ => ?_) (fun _ => ?_) <;> unfold topPlace at * <;> omega

theorem shortest_reads {v : Finite} (some : v.significand ≠ 0) (B : v.Bounded) :
    v.Reads (number v.shortest.1 v.shortest.2) :=
  search_reads ⟨21, by decide, onGrid_fine some (lastGrid_fine B)⟩

/-! ### Neighbours -/

def ofPattern (n : Nat) : Finite :=
  if n / leadingBit = 0 then ⟨n % leadingBit, -1074, false⟩
  else ⟨leadingBit + n % leadingBit, ((n / leadingBit : ℕ) : Int) - 1075,
    n % leadingBit = 0 ∧ 1 < n / leadingBit⟩

theorem ofPattern_parity (n : Nat) : (ofPattern n).significand % 2 = n % 2 := by
  unfold ofPattern leadingBit
  split
  · dsimp only
    omega
  · dsimp only
    omega

theorem low_lt_high (v : Finite) : v.low < v.high := by
  refine mul_lt_mul_of_pos_right ?_ (zpow_pos (by decide) _)
  rw [Nat.cast_lt]
  omega

/-- What rounds to a double ends where begins what rounds to the next one. -/
theorem high_ofPattern (n : Nat) : (ofPattern n).high = (ofPattern (n + 1)).low := by
  unfold ofPattern
  by_cases inner : n % leadingBit + 1 < leadingBit
  · -- the next significand
    have field : (n + 1) / leadingBit = n / leadingBit := by unfold leadingBit at *; omega
    have fraction : (n + 1) % leadingBit = n % leadingBit + 1 := by unfold leadingBit at *; omega
    rw [field, fraction]
    split
    · refine congrArg (fun a : Nat => (a : ℚ) * _) ?_
      simp only [Bool.false_eq_true, if_false]
      omega
    · refine congrArg (fun a : Nat => (a : ℚ) * _) ?_
      simp only [Nat.succ_ne_zero, false_and, decide_false, Bool.false_eq_true, if_false]
      omega
  · -- the next exponent, whose first gap below is half as wide unless it is the lowest
    have field : (n + 1) / leadingBit = n / leadingBit + 1 := by unfold leadingBit at *; omega
    have fraction : (n + 1) % leadingBit = 0 := by unfold leadingBit at *; omega
    have last : n % leadingBit = leadingBit - 1 := by unfold leadingBit at *; omega
    rw [field, fraction, last, if_neg (Nat.succ_ne_zero _)]
    by_cases lowest : n / leadingBit = 0
    · rw [lowest, if_pos rfl]
      refine congrArg₂ (fun (a : Nat) (i : Int) => (a : ℚ) * 2 ^ i) ?_ ?_
      · decide
      · decide
    · rw [if_neg lowest]
      have wider : (2 : ℚ) ^ (((n / leadingBit + 1 : ℕ) : Int) - 1075 - 2) =
          2 * 2 ^ (((n / leadingBit : ℕ) : Int) - 1075 - 2) := by
        rw [← zpow_one_add₀ (by decide)]
        congr 1
        omega
      have whole : 4 * (leadingBit + (leadingBit - 1)) + 2 = (4 * (leadingBit + 0) - 1) * 2 := by decide
      have gap : decide (0 = 0 ∧ 1 < n / leadingBit + 1) = true := by
        exact decide_eq_true ⟨rfl, Nat.succ_lt_succ (Nat.pos_of_ne_zero lowest)⟩
      unfold high low
      dsimp only
      rw [gap, wider, if_pos rfl, whole, Nat.cast_mul, mul_assoc, Nat.cast_ofNat]

theorem high_le_low {n m : Nat} (lt : n < m) : (ofPattern n).high ≤ (ofPattern m).low := by
  induction m, lt using Nat.le_induction with
  | base => exact (high_ofPattern n).le
  | succ m _ ih => exact (ih.trans (low_lt_high _).le).trans (high_ofPattern m).le

/-- A number rounds to one double. -/
theorem reads_unique {n m : Nat} {x : ℚ} (R : (ofPattern n).Reads x) (R' : (ofPattern m).Reads x) :
    n = m := by
  have apart : ∀ {n m : Nat}, (ofPattern n).Reads x → (ofPattern m).Reads x → ¬ n < m := by
    intro n m R R' lt
    have high : x = (ofPattern n).high := le_antisymm R.below ((high_le_low lt).trans R'.above)
    have low : (ofPattern m).low = x := le_antisymm R'.above (R.below.trans (high_le_low lt))
    -- an end that both have belongs to the even one
    have even : n % 2 = 0 := by
      rw [← ofPattern_parity]
      exact Decidable.byContradiction (fun odd => (R.inner odd).2 high)
    have even' : m % 2 = 0 := by
      rw [← ofPattern_parity]
      exact Decidable.byContradiction (fun odd => (R'.inner odd).1 low)
    have next : n + 1 < m := by omega
    have between := ((high_ofPattern n).trans_lt (low_lt_high (ofPattern (n + 1)))).trans_le
      (high_le_low next)
    exact absurd (high.symm.trans low.symm) between.ne
  exact Nat.le_antisymm (Nat.not_lt.mp (apart R' R)) (Nat.not_lt.mp (apart R R'))

end Finite

/-! ### Digits -/

def reading (text : List Char) : ℚ :=
  let whole := text.takeWhile (· != '.')
  let places := (text.dropWhile (· != '.')).tail
  number (Nat.ofDigitChars 10 (whole ++ places) 0) (-places.length)

theorem takeWhile_append_cons {p : Char → Bool} {text : List Char} (all : ∀ c ∈ text, p c = true)
    {c : Char} (last : p c = false) (rest : List Char) :
    (text ++ c :: rest).takeWhile p = text ∧ (text ++ c :: rest).dropWhile p = c :: rest := by
  constructor
  · rw [List.takeWhile_append_of_pos all, List.takeWhile_cons, last]
    exact List.append_nil text
  · rw [List.dropWhile_append_of_pos all, List.dropWhile_cons, last]
    rfl

theorem reading_point {whole : List Char} (digits : ∀ c ∈ whole, c ≠ '.') (places : List Char) :
    reading (whole ++ '.' :: places) =
      number (Nat.ofDigitChars 10 (whole ++ places) 0) (-places.length) := by
  obtain ⟨taken, dropped⟩ := takeWhile_append_cons (p := (· != '.'))
    (fun c mem => bne_iff_ne.mpr (digits c mem)) (c := '.') (by decide) places
  simp only [reading, taken, dropped, List.tail_cons]

theorem reading_whole {text : List Char} (digits : ∀ c ∈ text, c ≠ '.') :
    reading text = number (Nat.ofDigitChars 10 text 0) 0 := by
  have all : ∀ c ∈ text, (c != '.') = true := fun c mem => bne_iff_ne.mpr (digits c mem)
  have taken := List.takeWhile_eq_self_iff.mpr all
  have dropped := List.dropWhile_eq_nil_iff.mpr all
  simp [reading, taken, dropped]

theorem digit_ne_point {c : Char} (digit : c.isDigit = true) : c ≠ '.' := by
  rintro rfl
  exact absurd digit (by decide)

theorem isDigit_of_mem {c : Char} {d k : Nat}
    (mem : c ∈ Nat.toDigits 10 d ∨ c ∈ List.replicate k '0') : c.isDigit = true := by
  rcases mem with digit | zero
  · exact Nat.isDigit_of_mem_toDigits (by decide) (by decide) digit
  · rw [List.eq_of_mem_replicate zero]
    decide

theorem positional_eq (d : Nat) (place : Int) :
    (0 ≤ place ∧ (positional d place).toList = Nat.toDigits 10 d ++ List.replicate place.toNat '0') ∨
    ∃ whole places, (positional d place).toList = whole ++ '.' :: places ∧ whole ≠ [] ∧
      places.length = -place ∧ ∃ k, whole ++ places = List.replicate k '0' ++ Nat.toDigits 10 d := by
  unfold positional
  split
  · rename_i integral
    exact .inl ⟨integral, String.toList_ofList⟩
  · rename_i fractional
    dsimp only
    let digits := Nat.toDigits 10 d
    let padded := List.replicate ((-place).toNat + 1 - digits.length) '0' ++ digits
    have enough : (-place).toNat + 1 ≤ padded.length := by
      simp only [padded, List.length_append, List.length_replicate]
      omega
    refine .inr ⟨padded.take (padded.length - (-place).toNat), padded.drop (padded.length - (-place).toNat),
      String.toList_ofList, ?_, ?_, _, List.take_append_drop ..⟩
    · intro none
      have := congrArg List.length none
      rw [List.length_take, List.length_nil] at this
      omega
    · rw [List.length_drop]
      omega

theorem positional_digits {d : Nat} {place : Int} {c : Char} (mem : c ∈ (positional d place).toList) :
    c.isDigit = true ∨ c = '.' := by
  rcases positional_eq d place with ⟨_, text⟩ | ⟨whole, places, text, _, _, k, digits⟩
  · rw [text, List.mem_append] at mem
    exact .inl (isDigit_of_mem mem)
  · rw [text, List.mem_append, List.mem_cons] at mem
    rcases mem with left | rfl | right
    · exact .inl (isDigit_of_mem (List.mem_append.mp (digits ▸ List.mem_append_left places left)).symm)
    · exact .inr rfl
    · exact .inl (isDigit_of_mem (List.mem_append.mp (digits ▸ List.mem_append_right whole right)).symm)

theorem positional_reads (d : Nat) (place : Int) :
    reading (positional d place).toList = number d place := by
  have parsed := Nat.ofDigitChars_toDigits (b := 10) (n := d) (by decide) (by decide)
  rcases positional_eq d place with ⟨integral, text⟩ | ⟨whole, places, text, _, count, k, digits⟩
  · rw [text, reading_whole, Nat.ofDigitChars_append, parsed, Nat.ofDigitChars_replicate_zero]
    · obtain ⟨k, rfl⟩ := Int.eq_ofNat_of_zero_le integral
      simp only [number, zpow_zero, mul_one, Nat.cast_mul, Nat.cast_pow, Nat.cast_ofNat,
        Int.toNat_natCast, zpow_natCast]
      ring
    · intro c mem
      exact digit_ne_point (isDigit_of_mem (List.mem_append.mp mem))
  · rw [text, reading_point, digits, Nat.ofDigitChars_append, Nat.ofDigitChars_replicate_zero, Nat.mul_zero,
      parsed, count, neg_neg]
    intro c mem
    exact digit_ne_point
      (isDigit_of_mem (List.mem_append.mp (digits ▸ List.mem_append_left places mem)).symm)

/-! ### Texts of doubles -/

theorem Finite.ofDouble_eq (x : Double) : Finite.ofDouble x = Finite.ofPattern x.magnitude.toNat := by
  have fraction : x.bits.toNat % leadingBit = x.magnitude.toNat % leadingBit := by
    rw [Double.magnitude, UInt64.toNat_and]
    change _ = (x.bits.toNat &&& (2 ^ 63 - 1)) % leadingBit
    rw [Nat.and_two_pow_sub_one_eq_mod]
    unfold leadingBit
    omega
  unfold Finite.ofDouble Finite.ofPattern
  dsimp only
  rw [fraction]

/-- A double that is no NaN and not infinite, by its pattern. -/
def IsFinite (x : Double) : Prop := x.isNaN = false ∧ x.isInfinite = false

theorem magnitude_lt {x : Double} (finite : IsFinite x) : x.magnitude.toNat < 2047 * leadingBit := by
  obtain ⟨number, bounded⟩ := finite
  rw [Double.isNaN, decide_eq_false_iff_not, gt_iff_lt, UInt64.not_lt, UInt64.le_iff_toNat_le] at number
  rw [Double.isInfinite, beq_eq_false_iff_ne, ne_eq, ← UInt64.toNat_inj] at bounded
  exact Nat.lt_of_le_of_ne number bounded

theorem Finite.bounded_ofPattern {n : Nat} (lt : n < 2047 * leadingBit) : (ofPattern n).Bounded := by
  unfold leadingBit at lt
  unfold ofPattern
  split
  · exact ⟨(Nat.mod_lt n (by decide)).trans (by decide), Int.le_refl _, show (-1074 : Int) ≤ 971 by decide⟩
  · refine ⟨?_, ?_, ?_⟩
    all_goals
      unfold leadingBit at *
      dsimp only
      omega

theorem Finite.significand_ofPattern {n : Nat} (some : n ≠ 0) : (ofPattern n).significand ≠ 0 := by
  unfold ofPattern leadingBit
  split
  · dsimp only
    omega
  · dsimp only
    omega

theorem Finite.reads_zero : (ofPattern 0).Reads 0 := by
  have low : (ofPattern 0).low = 0 := zero_mul _
  exact ⟨low.le, low.symm.trans_le (low_lt_high _).le, fun odd => absurd rfl odd⟩

theorem reading_zero : reading "0".toList = 0 := by
  change reading ['0'] = 0
  rw [reading_whole (by simp)]
  exact zero_mul _

/-- The text of a finite double at or above zero reads back to it. -/
theorem ofMagnitude_reads {x : Double} (finite : IsFinite x) :
    (Finite.ofPattern x.magnitude.toNat).Reads (reading (ofMagnitude x).toList) := by
  unfold ofMagnitude
  rw [finite.2, if_neg (by decide)]
  split
  · rename_i zero
    rw [zero, reading_zero]
    exact Finite.reads_zero
  · rename_i some
    have positive : x.magnitude.toNat ≠ 0 := fun zero => some (UInt64.toNat_inj.mp zero)
    rw [Finite.ofDouble_eq, positional_reads]
    exact Finite.shortest_reads (Finite.significand_ofPattern positive)
      (Finite.bounded_ofPattern (magnitude_lt finite))

theorem positional_ne_nil (d : Nat) (place : Int) : (positional d place).toList ≠ [] := by
  rcases positional_eq d place with ⟨_, text⟩ | ⟨whole, places, text, some, _⟩
  · rw [text]
    exact List.append_ne_nil_of_left_ne_nil Nat.toDigits_ne_nil _
  · rw [text]
    exact List.append_ne_nil_of_left_ne_nil some _

theorem ofMagnitude_digits {x : Double} (finite : IsFinite x) {c : Char}
    (mem : c ∈ (ofMagnitude x).toList) : c.isDigit = true ∨ c = '.' := by
  unfold ofMagnitude at mem
  rw [finite.2, if_neg (by decide)] at mem
  split at mem
  · exact .inl (by rw [List.mem_singleton.mp mem]; decide)
  · exact positional_digits mem

theorem ofMagnitude_ne_nil (x : Double) : (ofMagnitude x).toList ≠ [] := by
  unfold ofMagnitude
  split
  · decide
  · split
    · decide
    · exact positional_ne_nil _ _

theorem ofMagnitude_infinite {x : Double} (infinite : x.isInfinite = true) : ofMagnitude x = "inf" := by
  rw [ofMagnitude, if_pos infinite]

def isSign (c : Char) : Bool := c == '-' || c == '+'

theorem isSign_of_isDigit {c : Char} (digit : c.isDigit = true) : isSign c = false := by
  cases sign : isSign c with
  | false => rfl
  | true =>
    rcases Bool.or_eq_true_iff.mp sign with minus | plus
    · rw [beq_iff_eq.mp minus] at digit
      exact absurd digit (by decide)
    · rw [beq_iff_eq.mp plus] at digit
      exact absurd digit (by decide)

theorem ofMagnitude_unsigned {x : Double} (some : x.isNaN = false) :
    ∀ c ∈ (ofMagnitude x).toList, isSign c = false := by
  cases infinite : x.isInfinite with
  | true =>
    rw [ofMagnitude_infinite infinite]
    simp [isSign]
  | false =>
    intro c mem
    rcases ofMagnitude_digits ⟨some, infinite⟩ mem with digit | rfl
    · exact isSign_of_isDigit digit
    · decide

theorem ofMagnitude_injective {x y : Double} (hx : x.isNaN = false) (hy : y.isNaN = false)
    (same : ofMagnitude x = ofMagnitude y) : x.magnitude = y.magnitude := by
  have letter : ∀ {x y : Double}, y.isNaN = false → x.isInfinite = true → y.isInfinite = false →
      ofMagnitude x ≠ ofMagnitude y := by
    intro x y hy infinite finite same
    have mem : 'i' ∈ (ofMagnitude y).toList := by
      rw [← same, ofMagnitude_infinite infinite]
      decide
    exact absurd (ofMagnitude_digits ⟨hy, finite⟩ mem) (by decide)
  cases ix : x.isInfinite with
  | true =>
    cases iy : y.isInfinite with
    | true => exact (beq_iff_eq.mp ix).trans (beq_iff_eq.mp iy).symm
    | false => exact absurd same (letter hy ix iy)
  | false =>
    cases iy : y.isInfinite with
    | true => exact absurd same.symm (letter hx iy ix)
    | false =>
      have R := ofMagnitude_reads ⟨hx, ix⟩
      have R' := ofMagnitude_reads ⟨hy, iy⟩
      rw [same] at R
      exact UInt64.toNat_inj.mp (Finite.reads_unique R R')

end VectorHeap.Decimal
