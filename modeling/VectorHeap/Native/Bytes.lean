/-! Byte strings: little-endian numbers, slices, and writes in place. -/
namespace VectorHeap

abbrev Bytes := List UInt8

namespace Bytes

def ofNat : Nat → Nat → Bytes
  | 0, _ => []
  | width + 1, n => UInt8.ofNat n :: ofNat width (n / 256)

def toNat : Bytes → Nat
  | [] => 0
  | b :: bs => b.toNat + 256 * toNat bs

def zeros (n : Nat) : Bytes := List.replicate n 0

def slice (bs : Bytes) (offset width : Nat) : Bytes := (bs.drop offset).take width

/-- The bytes from offset on replaced by data; the length is kept while data fits. -/
def overwrite (bs : Bytes) (offset : Nat) (data : Bytes) : Bytes :=
  bs.take offset ++ data ++ bs.drop (offset + data.length)

def untilZero (bs : Bytes) : Bytes := bs.takeWhile (· != 0)

@[simp] theorem length_ofNat (width n : Nat) : (ofNat width n).length = width := by
  induction width generalizing n with
  | zero => rfl
  | succ w ih => simp [ofNat, ih]

theorem toNat_ofNat (width n : Nat) : toNat (ofNat width n) = n % Nat.pow 256 width := by
  induction width generalizing n with
  | zero => exact (Nat.mod_one n).symm
  | succ w ih =>
    simp only [ofNat, toNat, ih, UInt8.toNat_ofNat']
    change _ = n % (Nat.pow 256 w * 256)
    rw [Nat.mul_comm (Nat.pow 256 w) 256, Nat.mod_mul]

theorem ofNat_toNat (bs : Bytes) : ofNat bs.length (toNat bs) = bs := by
  induction bs with
  | nil => rfl
  | cons b bs ih =>
    have low : (b.toNat + 256 * toNat bs) / 256 = toNat bs := by
      have := b.toNat_lt
      omega
    simp only [List.length_cons, ofNat, toNat, low, ih]
    congr 1
    apply UInt8.toNat_inj.mp
    simp

theorem length_overwrite (bs : Bytes) (offset : Nat) (data : Bytes)
    (fits : offset + data.length ≤ bs.length) : (overwrite bs offset data).length = bs.length := by
  simp only [overwrite, List.length_append, List.length_take, List.length_drop]
  omega

end Bytes
end VectorHeap
