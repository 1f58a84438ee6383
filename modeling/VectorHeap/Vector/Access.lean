import VectorHeap.Native.Codec
import VectorHeap.Vector.Construction

/-! Reading and writing elements.
While no vector of the type was ever promoted an access goes to the managed buffer without looking
for native contents. -/
namespace VectorHeap.Op

def broken {α : Type} (type : ElemType) : Op α := fail (.representationMismatch type type)

def checkType (expected found : ElemType) : Op Unit :=
  if found = expected then pure () else fail (.representationMismatch expected found)

def checkIndex (cell : VectorCell) (i : Nat) : Op Unit :=
  if i < cell.length then pure () else fail (.indexOutOfBounds i cell.length)

/-- The managed buffer when the access should use it. -/
def managed? (cell : VectorCell) : Op (Option Buffer) := do
  let ctx ← context cell.context
  if ctx.switches.isPromoted cell.type then return cell.buffer
  else
    match cell.buffer with
    | some b => return some b
    | none => broken cell.type

def nativePeer (cell : VectorCell) : Op PeerId :=
  match cell.peer with
  | some p => pure p
  | none => broken cell.type

def loadValue (p : PeerId) (t : InlineType) (i : Nat) : Op t.Value :=
  return t.decode (← readSlot p t.width i)

/-- A slot of native contents. The handle in an indirect slot is looked up in the vector's own
context. -/
def loadNative (cell : VectorCell) (p : PeerId) (i : Nat) : Op Elem := do
  match InlineType.ofElemType? cell.type with
  | some t => return .ofValue t (← loadValue p t i)
  | none =>
    let e := (← lookup cell.context (← readHandle p i)).toElem
    checkType cell.type e.type
    return e

def getElem (v : VectorId) (i : Nat) : Op Elem := do
  let cell ← vector v
  checkIndex cell i
  match ← managed? cell with
  | some b =>
    match b.get? i with
    | some e => return e
    | none => fail (.indexOutOfBounds i cell.length)
  | none => loadNative cell (← nativePeer cell) i

def getElems (v : VectorId) (i : Nat) : Nat → Op (List Elem)
  | 0 => return []
  | n + 1 => do
    let e ← getElem v i
    return e :: (← getElems v (i + 1) n)

def toList (v : VectorId) : Op (List Elem) := do
  getElems v 0 (← vector v).length

def bufferValues (t : InlineType) (b : Buffer) : Op (List t.Value) :=
  if b.type = t.elemType then pure (b.slots.filterMap (Elem.value? t))
  else fail (.representationMismatch t.elemType b.type)

def getValue (v : VectorId) (t : InlineType) (i : Nat) : Op t.Value := do
  let cell ← vector v
  checkType cell.type t.elemType
  checkIndex cell i
  match ← managed? cell with
  | some b =>
    let values ← bufferValues t b
    match values[i]? with
    | some x => return x
    | none => halt (.indexPastEnd values.length i)
  | none => loadValue (← nativePeer cell) t i

def toValues (v : VectorId) (t : InlineType) : Op (List t.Value) := do
  let cell ← vector v
  checkType cell.type t.elemType
  match ← managed? cell with
  | some b =>
    let values ← bufferValues t b
    if cell.length ≤ values.length then return values.take cell.length
    else halt (.rangePastEnd cell.length values.length)
  | none =>
    let peer ← peer (← nativePeer cell)
    return t.decodeAll cell.length (← contentsTo peer (cell.length * t.width))

/-- Stores into a slot. A native slot takes the handle of an indirect element, and that is assigned
between two passes. -/
def storeAt (v : VectorId) (cell : VectorCell) (i : Nat) (e : Elem) (assigned : Option Handle) :
    Op (Pass (Option Handle) Unit) := do
  match ← managed? cell with
  | some b =>
    match ← ofPanic (b.store? i e) with
    | some b' =>
      modify (·.modifyVector v (fun cell => { cell with buffer := some b' }))
      return .done ()
    | none => broken cell.type
  | none =>
    let p ← nativePeer cell
    match e.object?, assigned with
    | none, _ =>
      writeSlots p cell.type.nativeWidth i e.encode
      return .done ()
    | some o, some handle =>
      writeHandles p i [(o, handle)]
      return .done ()
    | some o, none => return .again (some (← ensureHandle o))

def noteMissing (v : VectorId) (e : Elem) : Op Unit := do
  if ← isNA e then modify (·.modifyVector v (fun cell => { cell with complete := false }))

def setPass (v : VectorId) (i : Nat) (e : Elem) (assigned : Option Handle) :
    Op (Pass (Option Handle) Unit) := do
  let cell ← vector v
  checkIndex cell i
  noteMissing v e
  storeAt v cell i e assigned

def setPasses : Nat := 2

/-- Stores an element. The type is checked first, then that the vector is not shared, then the
index. -/
def setElem (v : VectorId) (i : Nat) (e : Elem) : Op Unit := do
  let cell ← vector v
  checkType cell.type e.type
  if cell.sharing.isShared then halt .sharedWrite
  retry (setPass v i e) setPasses none

end VectorHeap.Op
