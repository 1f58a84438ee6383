import VectorHeap.Element

/-! Values as an interpreter binds and passes them, and the frames that bind them.
A frame as a value is a reference: it is shared and compared by identity. -/
namespace VectorHeap

inductive Value
  | null
  | vector (v : VectorId)
  | string (s : StringId)
  /-- A table over a list of columns. -/
  | dataFrame (columns : VectorId)
  /-- Integer codes into a vector of levels. -/
  | factor (codes levels : VectorId)
  | environment (f : FrameId)
deriving DecidableEq, Inhabited

namespace Value

def sharingTarget? : Value → Option VectorId
  | vector v => some v
  | dataFrame columns => some columns
  | factor codes _ => some codes
  | null | string _ | environment _ => none

def vector? : Value → Option VectorId
  | vector v => some v
  | _ => none

def same (a b : Value) : Bool := a == b

end Value

abbrev Frame := Table String Value

end VectorHeap
