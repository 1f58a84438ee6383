import VectorHeap.Fault
import VectorHeap.Native.Bytes

/-! Blocks of native memory.
A request of no bytes is refused, and so is one of more bytes than an object can have. Any other may be
refused by the allocator. A block starts zeroed, and resizing it keeps the bytes that both sizes have. -/
namespace VectorHeap.Block

/-- With its size rounded up to the alignment of 8 bytes, no object has 2^63 bytes or more. -/
def maxSize : Nat := 0x7FFFFFFFFFFFFFF8

/-- What an allocator with plenty of memory grants. -/
def ample (bytes : Nat) : Bool := bytes < 0x4000000000000000

def Refused (grants : Nat → Bool) (bytes : Nat) : Prop :=
  bytes = 0 ∨ maxSize < bytes ∨ grants bytes = false

instance (grants : Nat → Bool) (bytes : Nat) : Decidable (Refused grants bytes) :=
  inferInstanceAs (Decidable (_ ∨ _ ∨ _))

def check (grants : Nat → Bool) (bytes : Nat) : Except Error Unit :=
  if Refused grants bytes then .error (.allocationFailure bytes) else .ok ()

def resized (old : Bytes) (size : Nat) : Bytes := old.take size ++ Bytes.zeros (size - old.length)

def allocate (size : Nat) (grants : Nat → Bool := ample) : Except Error Bytes := do
  check grants size
  return Bytes.zeros size

def reallocate (old : Bytes) (size : Nat) (grants : Nat → Bool := ample) : Except Error Bytes := do
  check grants size
  return resized old size

theorem allocate_eq (size : Nat) (grants : Nat → Bool) : allocate size grants =
    if Refused grants size then .error (.allocationFailure size) else .ok (Bytes.zeros size) := by
  unfold allocate check
  split <;> rfl

theorem reallocate_eq (old : Bytes) (size : Nat) (grants : Nat → Bool) : reallocate old size grants =
    if Refused grants size then .error (.allocationFailure size) else .ok (resized old size) := by
  unfold reallocate check
  split <;> rfl

theorem length_resized (old : Bytes) (size : Nat) : (resized old size).length = size := by
  simp only [resized, Bytes.zeros, List.length_append, List.length_take, List.length_replicate]
  omega

end VectorHeap.Block
