import VectorHeap.ElemType
import VectorHeap.Handle

/-! What can stop an operation.
An error is an answer to its caller. A panic is a broken assertion or an impossible size: it stops
the operation where it stands and leaves what was done before it. The program is built with overflow
checks and debug assertions, so an addition or a product that leaves its word is a panic, and so is a
debug assertion that fails. -/
namespace VectorHeap

inductive Error
  | allocationFailure (bytes : Nat)
  | invalidHandle (handle : Handle) (counter : UInt64) (site : Option String)
  | nullBuffer (length : Nat)
  | contextDropped
  | representationMismatch (expected found : ElemType)
  | indexOutOfBounds (index length : Nat)
  | lengthExceedsCapacity (length capacity : Nat)
  | capacityBelowLength (capacity length : Nat)
  | unsupportedExternal (type : ElemType)
deriving DecidableEq

namespace Error

def message : Error → String
  | allocationFailure bytes => s!"failed to allocate {bytes} bytes of native memory"
  | invalidHandle handle counter _ =>
    s!"unknown native reference {handle.display} (current id count: " ++
      Hex.marked counter.toNat ++ ")"
  | nullBuffer length => s!"cannot adopt a null native buffer of length {length}"
  | contextDropped => "native context has been dropped"
  | representationMismatch expected found =>
    s!"representation mismatch: expected {expected.name} element, found {found.name}"
  | indexOutOfBounds index length => s!"index {index} out of bounds for length {length}"
  | lengthExceedsCapacity length capacity =>
    s!"length {length} exceeds allocated capacity {capacity}"
  | capacityBelowLength capacity length => s!"true length {capacity} is below length {length}"
  | unsupportedExternal type => s!"{type.name} vectors cannot adopt an external native buffer"

def code : Error → String
  | allocationFailure _ => "rvec_native_E0401"
  | invalidHandle .. => "rvec_native_E0402"
  | nullBuffer _ => "rvec_native_E0403"
  | contextDropped => "rvec_native_E0404"
  | representationMismatch .. => "rvec_access_E0501"
  | indexOutOfBounds .. => "rvec_access_E0502"
  | lengthExceedsCapacity .. => "rvec_access_E0503"
  | capacityBelowLength .. => "rvec_access_E0504"
  | unsupportedExternal _ => "rvec_access_E0505"

/-- Of an allocation site only the first line is shown. -/
def firstLine (s : String) : String := String.ofList (s.toList.takeWhile (· != '\n'))

def help : Error → Option String
  | allocationFailure _ =>
    some "Native allocations are not retried; free memory or reduce the vector size"
  | invalidHandle _ _ site => site.map firstLine
  | contextDropped => some "String elements keep only a weak link to their context"
  | representationMismatch .. =>
    some "Element type and storage width disagree; this should be unreachable"
  | lengthExceedsCapacity .. => some "Grow the true length first to reallocate the backing store"
  | capacityBelowLength .. => some "Shrink the length before the capacity"
  | _ => none

def isInternal : Error → Bool
  | invalidHandle .. | representationMismatch .. => true
  | _ => false

end Error

inductive Panic
  | addOverflow
  | multiplyOverflow
  | capacityOverflow
  | registeredTwice (handle : Handle)
  | sharedWrite
  | indexPastEnd (length index : Nat)
  | rangePastEnd (stop length : Nat)
  | contentsNotAllocated
  /-- Contents are given to a peer that has some. -/
  | contentsAllocated
  /-- Behind the length and the capacity of native contents. -/
  | slotPastEnd
  /-- Memory outside of the contents is accessed. Nothing looks out for that. -/
  | outsideContents
  /-- A name with a zero byte, first at the position, cannot be given to a worker. -/
  | unusableName (position : Nat) (bytes : List UInt8)
  /-- The clock does not reach the end of a wait. -/
  | deadlineOverflow
deriving DecidableEq

def Panic.message : Panic → String
  | addOverflow => "attempt to add with overflow"
  | multiplyOverflow => "attempt to multiply with overflow"
  | capacityOverflow => "capacity overflow"
  | registeredTwice handle => s!"handle {handle.display} registered twice"
  | sharedWrite => "in-place write to a shared vector"
  | indexPastEnd length index =>
    s!"index out of bounds: the len is {length} but the index is {index}"
  | rangePastEnd stop length =>
    s!"range end index {stop} out of range for slice of length {length}"
  | contentsNotAllocated => "native contents not allocated"
  | contentsAllocated => "assertion failed: matches!(block.backing, Backing::Unallocated)"
  | slotPastEnd => "assertion failed: index < self.true_length.max(self.length)"
  | outsideContents => "undefined behaviour: access outside of the contents"
  | unusableName position bytes =>
    s!"thread name may not contain interior null bytes: NulError({position}, [" ++
      String.intercalate ", " (bytes.map (fun b => toString b.toNat)) ++ "])"
  | deadlineOverflow => "overflow when adding duration to instant"

end VectorHeap
