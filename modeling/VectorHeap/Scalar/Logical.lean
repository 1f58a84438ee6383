/-! Three-valued logicals.
In native memory a logical is a 4-byte integer: 0, 1, or the smallest integer for the missing value.
Reading accepts every other word as true, so writing what was read is not always the same word. -/
namespace VectorHeap

def intNA : Int32 := -2147483648

inductive Logical
  | false | true | na
deriving DecidableEq, Inhabited

namespace Logical

def ofBool (b : Bool) : Logical := if b then .true else .false

def toWord : Logical → Int32
  | .false => 0
  | .true => 1
  | .na => intNA

def ofWord (w : Int32) : Logical :=
  if w = 0 then .false else if w = intNA then .na else .true

def isNA (x : Logical) : Bool := x == .na

def display : Logical → String
  | .false => "FALSE"
  | .true => "TRUE"
  | .na => "NA"

theorem ofWord_toWord (x : Logical) : ofWord x.toWord = x := by cases x <;> decide

end Logical
end VectorHeap
