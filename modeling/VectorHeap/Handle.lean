import VectorHeap.Text.Hex

/-! Handles and their sequence.
Native code names an object by a 64-bit handle; zero names nothing. Handles are drawn from a counter
that starts odd and moves by an even stride, so it may wrap but never yields zero. -/
namespace VectorHeap

structure Handle where
  raw : UInt64
deriving DecidableEq, Inhabited

namespace Handle

def none : Handle := ⟨0⟩

def isSome (h : Handle) : Bool := h.raw != 0

def display (h : Handle) : String := Hex.marked h.raw.toNat

end Handle

structure HandleSequence where
  base : UInt64
  stride : UInt64
deriving DecidableEq, Inhabited

namespace HandleSequence

/-- The base made odd, the stride even and at least two. -/
def normalize (s : HandleSequence) : HandleSequence :=
  ⟨s.base ||| 1, (if s.stride < 2 then 2 else s.stride) &&& 0xFFFFFFFFFFFFFFFE⟩

/-- An odd start that is no plausible address, and the smallest stride. -/
def standard : HandleSequence := ⟨0x0DEF000000000001, 2⟩

end HandleSequence
end VectorHeap
