import VectorHeap.Vector.Access

/-! Length and capacity.
The length moves within the capacity and touches no slot. Changing the capacity reallocates, on
whichever side the contents are. -/
namespace VectorHeap.Op

def setLength (v : VectorId) (n : Nat) : Op Unit := do
  let cell ← vector v
  if cell.capacity < n then fail (.lengthExceedsCapacity n cell.capacity)
  let complete := cell.complete && decide (n ≤ cell.length)
  modify (·.modifyVector v (fun cell => { cell with length := n, complete }))
  match cell.peer with
  | some p =>
    if (← peer p).backing.isAllocated then
      modify (·.modifyPeer p (fun peer => { peer with length := n }))
  | none => pure ()

def indirectFiller (c : ContextId) (type : ElemType) : Op Object :=
  if type = .str then Object.string <$> naString c else Object.vector <$> emptyList c

def nativeFillers (c : ContextId) (type : ElemType) : Nat → Op (List (Object × Handle))
  | 0 => return []
  | n + 1 => do
    let o ← indirectFiller c type
    let handle ← ensureHandle o
    return (o, handle) :: (← nativeFillers c type n)

def fillMissing (p : PeerId) (type : ElemType) (slot count : Nat) : Op Unit := do
  match InlineType.ofElemType? type with
  | some t =>
    unless count = 0 do
      writeSlots p t.width slot (t.encodeAll (List.replicate count t.na))
  | none => pure ()

def emptyAddress (c : ContextId) (slots : Nat) : Op Address :=
  if slots = 0 then sentinel c else pure 0

def resizeNative (v : VectorId) (cell : VectorCell) (p : PeerId) (n : Nat)
    (made : List (Object × Handle)) : Op Unit := do
  reallocate cell.context p cell.type.nativeWidth n (← emptyAddress cell.context n)
  if cell.type.isIndirect then
    writeHandles p cell.capacity made
    modify (·.modifyPeer p (fun peer => { peer with pins := peer.pins.take n }))
  else fillMissing p cell.type cell.capacity (n - cell.capacity)
  modify (·.modifyVector v (fun cell => { cell with capacity := n }))

/-- One pass of a capacity change. The fillers of a native indirect vector are made between two
passes. -/
def capacityPass (v : VectorId) (n : Nat) (made : List (Object × Handle)) :
    Op (Pass (List (Object × Handle)) Unit) := do
  let cell ← vector v
  if n < cell.length then fail (.capacityBelowLength n cell.length)
  match cell.buffer with
  | some b =>
    let b' ← resizeBuffer cell.context b n
    modify (·.modifyVector v (fun cell => { cell with buffer := some b', capacity := n }))
    return .done ()
  | none =>
    let p ← nativePeer cell
    let grown := n - cell.capacity
    if cell.type.isIndirect ∧ made.length ≠ grown then
      return .again (← nativeFillers cell.context cell.type grown)
    resizeNative v cell p n made
    return .done ()

def capacityPasses : Nat := 2

def setCapacity (v : VectorId) (n : Nat) : Op Unit := retry (capacityPass v n) capacityPasses []

end VectorHeap.Op
