import VectorHeap.Fault

/-! Finding an element type by its index. -/
namespace VectorHeap.ElemType

def atIndex (i : Nat) : Except Panic (Option ElemType) :=
  if i + 1 < UInt64.size then .ok (ofIndex? i) else .error .addOverflow

end VectorHeap.ElemType
