import VectorHeap.Scalar.Inline
import VectorHeap.Store

/-! Elements of vectors.
An inline element is its value; a string or list element is a reference to another object. -/
namespace VectorHeap

inductive Elem
  | int (v : Int32)
  | double (v : Double)
  | logical (v : Logical)
  | complex (v : Complex)
  | raw (v : UInt8)
  | str (s : StringId)
  | list (v : VectorId)
deriving DecidableEq, Inhabited

inductive Object
  | vector (v : VectorId)
  | string (s : StringId)
deriving DecidableEq, Inhabited

namespace Elem

def type : Elem → ElemType
  | int _ => .int
  | double _ => .double
  | logical _ => .logical
  | complex _ => .complex
  | raw _ => .raw
  | str _ => .str
  | list _ => .list

def ofValue : (t : InlineType) → t.Value → Elem
  | .int, v => int v
  | .double, v => double v
  | .logical, v => logical v
  | .complex, v => complex v
  | .raw, v => raw v

def value? : (t : InlineType) → Elem → Option t.Value
  | .int, int v => some v
  | .double, double v => some v
  | .logical, logical v => some v
  | .complex, complex v => some v
  | .raw, raw v => some v
  | _, _ => none

def object? : Elem → Option Object
  | str s => some (.string s)
  | list v => some (.vector v)
  | _ => none

theorem type_ofValue (t : InlineType) (v : t.Value) : (ofValue t v).type = t.elemType := by
  cases t <;> rfl

theorem value_ofValue (t : InlineType) (v : t.Value) : (ofValue t v).value? t = some v := by
  cases t <;> rfl

end Elem

namespace Object

def toElem : Object → Elem
  | vector v => .list v
  | string s => .str s

theorem object_toElem (o : Object) : o.toElem.object? = some o := by cases o <;> rfl

theorem eq_of_toElem_eq {o o' : Object} (same : o.toElem = o'.toElem) : o = o' := by
  have objects := congrArg Elem.object? same
  rw [object_toElem, object_toElem] at objects
  exact Option.some.inj objects

end Object

theorem Elem.eq_toElem {e : Elem} (indirect : e.type.isIndirect = true) :
    ∃ o : Object, e = o.toElem := by
  cases e with
  | str s => exact ⟨.string s, rfl⟩
  | list v => exact ⟨.vector v, rfl⟩
  | _ => exact absurd indirect Bool.false_ne_true

end VectorHeap
