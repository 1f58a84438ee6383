import VectorHeap.Scalar.Double

/-! Decimal text of doubles.
The digits are the fewest that read back to the same pattern, and of those the nearest to the value,
a tie going up. They are always written positionally, without an exponent and without a trailing
".0". -/
namespace VectorHeap.Decimal

/-- A positive finite double as significand * 2 ^ exponent, with the gap below it halved at a power
of two. -/
structure Finite where
  significand : Nat
  exponent : Int
  halfGapBelow : Bool

def leadingBit : Nat := 0x10000000000000

def Finite.ofDouble (x : Double) : Finite :=
  let fraction : Nat := x.bits.toNat % leadingBit
  let field : Nat := x.magnitude.toNat / leadingBit
  if field = 0 then ⟨fraction, -1074, false⟩
  else ⟨leadingBit + fraction, (field : Int) - 1075, fraction = 0 ∧ 1 < field⟩

/-- An upper bound on the decimal position of the leading digit. -/
def Finite.topPlace (v : Finite) : Int :=
  (v.exponent + v.significand.log2 + 1) * 30103 / 100000 + 2

/-- The nearest multiple of 10 ^ place that reads back to the value, if a neighbour of the value on
that grid does. Scaled by a common factor, the interval that rounds to 4 * significand reaches 2 up
and 2 (at a power of two 1) down; its ends belong to it iff the significand is even. -/
def Finite.onGrid (v : Finite) (place : Int) : Option Nat :=
  let binary := v.exponent - 2
  let scale := (1 <<< binary.toNat) * Nat.pow 10 (-place).toNat
  let unit := (1 <<< (-binary).toNat) * Nat.pow 10 place.toNat
  let value := 4 * v.significand * scale
  let low := (4 * v.significand - if v.halfGapBelow then 1 else 2) * scale
  let high := (4 * v.significand + 2) * scale
  let inside (d : Nat) : Bool :=
    if v.significand % 2 = 0 then low ≤ d * unit && d * unit ≤ high
    else low < d * unit && d * unit < high
  let below := value / unit
  let above := below + 1
  match inside below, inside above with
  | true, true => some (if 2 * (value % unit) < unit then below else above)
  | true, false => some below
  | false, true => some above
  | false, false => none

/-- The first grid with a hit, from coarse to fine. -/
def Finite.search (v : Finite) : Nat → Int → Nat × Int
  | 0, place => (0, place)
  | n + 1, place =>
    match v.onGrid place with
    | some d => (d, place)
    | none => v.search n (place - 1)

/-- Seventeen digits always suffice, and the bound on the leading place is off by at most three. -/
def Finite.shortest (v : Finite) : Nat × Int := v.search 22 v.topPlace

def positional (d : Nat) (place : Int) : String :=
  let digits := Nat.toDigits 10 d
  if 0 ≤ place then String.ofList (digits ++ List.replicate place.toNat '0')
  else
    let places := (-place).toNat
    let padded := List.replicate (places + 1 - digits.length) '0' ++ digits
    let whole := padded.length - places
    String.ofList (padded.take whole ++ '.' :: padded.drop whole)

def ofMagnitude (x : Double) : String :=
  if x.isInfinite then "inf"
  else if x.magnitude = 0 then "0"
  else
    let (d, place) := (Finite.ofDouble x).shortest
    positional d place

def ofDouble (x : Double) : String :=
  if x.isNaN then "NaN"
  else if x.signBit then "-" ++ ofMagnitude x
  else ofMagnitude x

end VectorHeap.Decimal
