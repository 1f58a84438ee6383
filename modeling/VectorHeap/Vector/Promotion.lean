import VectorHeap.Vector.Capacity

/-! Promotion: moving a vector's contents into native memory, for good. -/
namespace VectorHeap.Op

def handlesOf : List Object → Op (List (Object × Handle))
  | [] => return []
  | o :: rest => do
    let handle ← ensureHandle o
    return (o, handle) :: (← handlesOf rest)

def bufferObjects (b : Buffer) : List Object := b.slots.filterMap Elem.object?

def elementHandles (v : VectorId) : Op (List (Object × Handle)) := do
  match (← vector v).buffer with
  | some b => handlesOf (bufferObjects b)
  | none => return []

/-- The native form of a buffer, given the handles of its elements. -/
def encodeBuffer (b : Buffer) (handles : List (Object × Handle)) : Bytes :=
  if b.type.isIndirect then handles.flatMap (fun e => handleBytes e.2)
  else b.slots.flatMap Elem.encode

def nativeBacking (cell : VectorCell) (b : Buffer) (handles : List (Object × Handle)) :
    Op Backing := do
  let size ← byteSize cell.type.nativeWidth cell.capacity
  if size = 0 then Backing.empty <$> sentinel cell.context
  else ownBlock (encodeBuffer b handles) size none

def moveOut (v : VectorId) (cell : VectorCell) (p : PeerId) (b : Buffer)
    (handles : List (Object × Handle)) : Op Unit := do
  let backing ← nativeBacking cell b handles
  install cell.context p backing cell.length cell.capacity (handles.map Prod.fst)
  modify (·.modifyContext cell.context
    (fun ctx => { ctx with switches := ctx.switches.flip cell.type }))
  modify (·.modifyVector v (fun cell => { cell with buffer := none }))

/-- One pass of a promotion, which goes through if the elements are still those that got handles. -/
def promotePass (v : VectorId) (handles : List (Object × Handle)) :
    Op (Pass (List (Object × Handle)) Handle) := do
  let p ← ensureVectorPeer v
  let handle := (← peer p).handle
  let cell ← vector v
  match cell.buffer with
  | none => return .done handle
  | some b =>
    if cell.type.isIndirect ∧ handles.map Prod.fst ≠ bufferObjects b then
      return .again (← elementHandles v)
    moveOut v cell p b handles
    return .done handle

def promotePasses : Nat := 1

/-- Moves the contents into native memory unless they are there, and answers the handle. -/
def promote (v : VectorId) : Op Handle := do
  let handles ← elementHandles v
  retry (promotePass v) promotePasses handles

end VectorHeap.Op
