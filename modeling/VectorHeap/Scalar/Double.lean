/-! Doubles as 64-bit patterns.
No operation here canonicalises a NaN, so payloads and signs survive every copy. Missing doubles are
NaNs whose low 32 bits are 1954. -/
namespace VectorHeap

structure Double where
  bits : UInt64
deriving DecidableEq, Inhabited

namespace Double

def zero : Double := ⟨0⟩

def magnitude (x : Double) : UInt64 := x.bits &&& 0x7FFFFFFFFFFFFFFF

def signBit (x : Double) : Bool := x.bits &&& 0x8000000000000000 != 0

def isNaN (x : Double) : Bool := x.magnitude > 0x7FF0000000000000

def isInfinite (x : Double) : Bool := x.magnitude == 0x7FF0000000000000

def na : Double := ⟨0x7FF00000000007A2⟩

def isNA (x : Double) : Bool := x.isNaN && (x.bits &&& 0xFFFFFFFF == 1954)

/-- Numerical equality: a NaN equals nothing and the two zeros are equal. -/
def numEq (x y : Double) : Bool :=
  !x.isNaN && !y.isNaN && (x.bits == y.bits || (x.magnitude == 0 && y.magnitude == 0))

/-- Numerically below zero, so neither negative zero nor a NaN. -/
def isNegative (x : Double) : Bool := x.signBit && !x.isNaN && x.magnitude != 0

def neg (x : Double) : Double := ⟨x.bits ^^^ 0x8000000000000000⟩

/-- The double nearest to a natural number below 2^1024, a tie going to the even mantissa. -/
def ofNat (n : Nat) : Double :=
  if n = 0 then zero
  else
    let e := n.log2
    let m :=
      if e ≤ 52 then n <<< (52 - e)
      else
        let unit := 1 <<< (e - 52)
        let q := n / unit
        let r := n % unit
        if 2 * r > unit ∨ (2 * r = unit ∧ q % 2 = 1) then q + 1 else q
    -- a mantissa rounded up to 2^53 carries into the exponent field by itself
    ⟨UInt64.ofNat ((e + 1022) <<< 52 + m)⟩

example : (ofNat 1).bits = 0x3FF0000000000000 ∧ (ofNat 3).bits = 0x4008000000000000 ∧
    (ofNat 9007199254740993).bits = 0x4340000000000000 := by decide +kernel

end Double
end VectorHeap
