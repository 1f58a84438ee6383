import VectorHeap.Heap.Strings

/-! Making vectors: over a managed buffer, with spare capacity, and over a foreign buffer. -/
namespace VectorHeap.Op

def overBuffer (c : ContextId) (b : Buffer) (length : Nat) : Op VectorId := do
  let complete ← ofPanic (b.complete? (← get).isNA length)
  addVector
    { context := c, type := b.type, length, capacity := b.capacity, complete, buffer := some b }

def newVector (c : ContextId) (b : Buffer) : Op VectorId := overBuffer c b b.capacity

def bufferOf (type : ElemType) (es : List Elem) : Op Buffer :=
  match Buffer.ofList? type es with
  | some b => pure b
  | none => fail (.representationMismatch type (((es.map Elem.type).find? (· ≠ type)).getD type))

def emptyList (c : ContextId) : Op VectorId := newVector c (.empty .list)

def emptyLists (c : ContextId) : Nat → Op (List VectorId)
  | 0 => return []
  | n + 1 => do
    let v ← emptyList c
    return v :: (← emptyLists c n)

def fillers (c : ContextId) (type : ElemType) (count : Nat) : Op (List Elem) := do
  match InlineType.ofElemType? type with
  | some t => return List.replicate count (.ofValue t t.na)
  | none =>
    if count = 0 then return []
    else if type = .str then return List.replicate count (.str (← naString c))
    else return (← emptyLists c count).map .list

def resizeBuffer (c : ContextId) (b : Buffer) (n : Nat) : Op Buffer := do
  ofPanic (b.checkGrowth n)
  let new ← fillers c b.type (n - b.capacity)
  match b.refill? n new with
  | some b' => return b'
  | none => fail (.representationMismatch b.type b.type)

/-- So many missing slots, of which the first are in use. -/
def withCapacity (c : ContextId) (type : ElemType) (length capacity : Nat) : Op VectorId := do
  if capacity < length then fail (.lengthExceedsCapacity length capacity)
  let b ← resizeBuffer c (.empty type) capacity
  overBuffer c b length

/-- A step in the construction of a vector, which dies at once if the step stops. -/
def orDiscard {α : Type} (v : VectorId) (op : Op α) : Op α :=
  tryCatch op (fun fault => do
    modify (fun h => { h with vectors := h.vectors.erase v })
    throw fault)

/-- A vector that reads and writes a foreign buffer in place. There is none at address zero. -/
def adopt (c : ContextId) (type : ElemType) (buffer : Option BufferId) (length : Nat) :
    Op VectorId := do
  if type.isIndirect then fail (.unsupportedExternal type)
  match buffer with
  | none => fail (.nullBuffer length)
  | some b =>
    let foreign ← live ((← get).buffers.find? b)
    modify (·.modifyContext c (fun ctx => { ctx with switches := ctx.switches.flip type }))
    let v ← addVector
      { context := c, type, length, capacity := length, complete := false, buffer := none }
    let p ← orDiscard v (ensureVectorPeer v)
    install c p (.external foreign.address b) length length []
    return v

end VectorHeap.Op
