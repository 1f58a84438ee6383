/-! Element types of homogeneous vectors.
Five types are held inline; strings and lists are references to other objects. Each type has two
widths: that of a slot of a managed buffer and that of a slot in native memory. -/
namespace VectorHeap

inductive ElemType
  | int | double | logical | complex | raw | str | list
deriving DecidableEq, Inhabited

namespace ElemType

def all : List ElemType := [int, double, logical, complex, raw, str, list]

def name : ElemType → String
  | int => "int"
  | double => "double"
  | logical => "logical"
  | complex => "complex"
  | raw => "raw"
  | str => "str"
  | list => "list"

def index : ElemType → Nat
  | int => 0
  | double => 1
  | logical => 2
  | complex => 3
  | raw => 4
  | str => 5
  | list => 6

def ofIndex? (i : Nat) : Option ElemType := all[i]?

def ofName? (s : String) : Option ElemType := all.find? (fun t => t.name == s)

def nativeWidth : ElemType → Nat
  | int => 4
  | double => 8
  | logical => 4
  | complex => 16
  | raw => 1
  | str => 8
  | list => 8

def managedWidth : ElemType → Nat
  | int => 4
  | double => 8
  | logical => 1
  | complex => 16
  | raw => 1
  | str => 8
  | list => 8

def isIndirect : ElemType → Bool
  | str | list => true
  | _ => false

theorem nativeWidth_pos (t : ElemType) : 0 < t.nativeWidth := by cases t <;> decide

theorem nativeWidth_indirect {t : ElemType} (indirect : t.isIndirect = true) :
    t.nativeWidth = 8 := by
  cases t <;> first | rfl | exact absurd indirect (by decide)

end ElemType

inductive InlineType
  | int | double | logical | complex | raw
deriving DecidableEq, Inhabited

namespace InlineType

def elemType : InlineType → ElemType
  | int => .int
  | double => .double
  | logical => .logical
  | complex => .complex
  | raw => .raw

def ofElemType? : ElemType → Option InlineType
  | .int => some int
  | .double => some double
  | .logical => some logical
  | .complex => some complex
  | .raw => some raw
  | .str | .list => none

theorem ofElemType_elemType (t : InlineType) : ofElemType? t.elemType = some t := by
  cases t <;> rfl

theorem elemType_not_indirect (t : InlineType) : t.elemType.isIndirect = false := by
  cases t <;> rfl

end InlineType
end VectorHeap
