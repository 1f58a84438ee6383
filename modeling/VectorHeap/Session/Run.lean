import VectorHeap.Session.Command

/-! Running commands.
A command is executed in a context. Then the dead are collected and the workers drained, so that
what is seen between two commands does not hang on how fast the workers are. -/
namespace VectorHeap

namespace Action

/-! ### Arguments -/

def elem (here : Action ContextId) : ElemArg → Action Elem
  | .inline t v => return .ofValue t v
  | .text s => do return .str (← run (Op.newString (← here) s))
  | .naString => do return .str (← run (Op.naString (← here)))
  | .string id => return .str (← string id)
  | .vector id => return .list (← vector id)
  | .emptyList => do return .list (← run (Op.emptyList (← here)))

def elems (here : Action ContextId) : List ElemArg → Action (List Elem)
  | [] => return []
  | a :: rest => do
    let e ← elem here a
    return e :: (← elems here rest)

def handleOf (id : String) : Action Handle := do
  let o ← object id
  run (Op.handleOf o)

def handle : HandleArg → Action Handle
  | .of id => handleOf id
  | .literal h => return h
  | .noted name => named (·.handles) name

def value : ValueArg → Action Value
  | .null => return .null
  | .vector id => return .vector (← vector id)
  | .string id => return .string (← string id)
  | .dataFrame id => return .dataFrame (← vector id)
  | .factor codes levels => return .factor (← vector codes) (← vector levels)
  | .environment f => return .environment (← frame f)
  | .bound f name => do
    let f ← frame f
    present (← run (Op.binding? f name))

def arguments : List (ValueArg × Bool) → Action (List Argument)
  | [] => return []
  | (a, constant) :: rest => do
    let v ← value a
    return ⟨v, constant⟩ :: (← arguments rest)

/-! ### Parts of commands -/

def newBuffer (name : String) (bytes : Bytes) : Action BufferId := do
  let b ← run (Op.newBuffer bytes)
  modify (fun s => { s with buffers := s.buffers.insert name b })
  return b

def bindVector (id : String) (v : VectorId) : Action Reply := do
  bindVariable id (.vector v)
  return .nothing

def bindResult (v result : VectorId) (into : String) : Action Reply := do
  bindVariable into (.vector result)
  return .result (result = v)

def viewElems : List Elem → Action (List ElemView)
  | [] => return []
  | e :: rest => do
    let view ← viewElem e
    return view :: (← viewElems rest)

def viewValues {t : InlineType} (vs : List t.Value) : List ElemView := vs.map (.inline t)

def peerNamed? (c : ContextId) (h : HandleArg) : Action (Option Peer) := do
  let h ← handle h
  return (← get).heap.peerNamed? c h

def elemInfo (e : Elem) : Action ElemInfo := do
  let h := (← get).heap
  return {
    type := e.type
    isNA := h.isNA e
    text := h.describeElem e
    int? := e.value? .int
    double? := e.value? .double
    string? := match e with | .str id => some (h.text id) | _ => none
    vector? := match e with | .list v => h.vectorState? v | _ => none }

def stringInfo (id : StringId) : Action StringInfo := do
  let h := (← get).heap
  let text := h.text id
  return {
    text
    size := text.utf8ByteSize
    isNA := h.stringIsNA id
    handle := h.handleOf (.string id)
    placement := (h.backingOf (.string id)).placement
    quoted := h.describeString id }

def poke (o : Object) (offset : Nat) (bytes : Bytes) : Action Unit := do
  let p ← present ((← get).heap.peerOf? o)
  modify (fun s => { s with heap := s.heap.overwrite p offset bytes })

def releaseTwice (c : ContextId) (h : Handle) : Action Reply := do
  let heap := (← get).heap
  match (heap.contexts.find? c).bind (fun ctx => ctx.registry.peer? h) with
  | none => return .nothing
  | some p =>
    let (heap, first) := heap.release c p
    let (heap, second) := heap.release c p
    modify (fun s => { s with heap })
    return .released first second (((heap.peers.find? p).map (·.released)).getD false)

def sharingOf (v : Value) : Action (Option SharingState) := do
  let h := (← get).heap
  return v.sharingTarget?.bind (fun id => (h.vectors.find? id).map (·.sharing))

def sharingsOf : List Argument → Action (List (Option SharingState))
  | [] => return []
  | a :: rest => do
    let s ← sharingOf a.value
    return s :: (← sharingsOf rest)

/-! ### Commands -/

def exec (here : Action ContextId) : Command → Action Reply
  | .newContext name config => do
    let new ← run (Op.addContext (.ofConfig config))
    modify (fun s => { s with contexts := s.contexts.insert name new })
    return .nothing
  | .dropContext name => do
    let known := (← get).contexts.contains name
    modify (fun s => { s with contexts := s.contexts.erase name })
    return .flag known
  | .shutdown => do
    let c ← here
    modify (fun s => { s with heap := s.heap.shutdown c })
    return .nothing
  | .counter => return .handle (← run (Op.context (← here))).registry.nextHandle
  | .describeContext => return .text (← run (Op.context (← here))).describe
  | .peerCount => return .count (← run (Op.context (← here))).registry.peers.size
  | .switch type =>
    return .text (Switches.display ((← run (Op.context (← here))).switches.isPromoted type))
  | .flip type => do
    let c ← here
    let first := !(← run (Op.context c)).switches.isPromoted type
    run (modify (·.modifyContext c (fun ctx => { ctx with switches := ctx.switches.flip type })))
    return .flag first
  | .sameContext id => do
    let v ← vector id
    return .flag ((← run (Op.vector v)).context = (← here))
  | .snapshot => return .snapshot (← run (Op.context (← here))).snapshot
  | .newVector id type values => do
    let es ← elems here values
    let b ← run (Op.bufferOf type es)
    bindVector id (← run (Op.newVector (← here) b))
  | .newList id => do bindVector id (← run (Op.emptyList (← here)))
  | .withCapacity id type length capacity => do
    bindVector id (← run (Op.withCapacity (← here) type length capacity))
  | .newString id text => do
    bindVariable id (.string (← run (Op.newString (← here) text)))
    return .nothing
  | .naString id => do
    bindVariable id (.string (← run (Op.naString (← here))))
    return .nothing
  | .alias id source => do
    bindVariable id (← object source)
    return .nothing
  | .drop id => do
    let known := (← get).objects.contains id
    modify (fun s => { s with objects := s.objects.erase id })
    return .flag known
  | .adopt id type length none => do bindVector id (← run (Op.adopt (← here) type none length))
  | .adopt id type length (some bytes) => do
    let b ← newBuffer id bytes
    bindVector id (← run (Op.adopt (← here) type (some b) length))
  | .get id index => do
    let v ← vector id
    return .elem (← viewElem (← run (Op.getElem v index)))
  | .describeElem id index => do
    let v ← vector id
    let e ← run (Op.getElem v index)
    return .text ((← get).heap.describeElem e)
  | .getValue id type index => do
    let v ← vector id
    return .elem (.inline type (← run (Op.getValue v type index)))
  | .set id index e => do
    let v ← vector id
    let e ← elem (return (← run (Op.vector v)).context) e
    run (Op.setElem v index e)
    return .nothing
  | .toList id => do
    let v ← vector id
    return .elems (← viewElems (← run (Op.toList v)))
  | .toValues id type => do
    let v ← vector id
    return .elems (viewValues (← run (Op.toValues v type)))
  | .take id index into => do
    let v ← vector id
    match (← run (Op.getElem v index)).object? with
    | some o => bindVariable into o
    | none => pure ()
    return .nothing
  | .elemEq a b => do
    let a ← elem here a
    let b ← elem here b
    return .flag ((← get).heap.elemEq a b)
  | .elemInfo e => do return .elemInfo (← elemInfo (← elem here e))
  | .setLength id length => do
    let v ← vector id
    run (Op.setLength v length)
    return .nothing
  | .setCapacity id capacity => do
    let v ← vector id
    run (Op.setCapacity v capacity)
    return .nothing
  | .ensurePeer id => do
    let o ← object id
    return .handle (← run (Op.ensureHandle o))
  | .promote id => do
    let v ← vector id
    return .handle (← run (Op.promote v))
  | .materialize id => do
    match ← object id with
    | .vector v => return .handle (← run (Op.promote v))
    | .string s =>
      let address ← run (Op.materialize s)
      return .flag (address = (← get).heap.dataAddress (.string s))
  | .copy id into => do
    let v ← vector id
    bindResult v (← run (Op.copy v)) into
  | .writable id into => do
    let v ← vector id
    bindResult v (← run (Op.writable v)) into
  | .sameObject id other => return .flag ((← object id) = (← object other))
  | .describe id => do
    match ← object id with
    | .vector v => return .text ((← get).heap.describeVector v)
    | .string s => return .text ((← get).heap.describeString s)
  | .applyTrigger id trigger => do
    let v ← vector id
    return .sharing (← run (Op.applyTrigger v trigger))
  | .markBound id => do
    let v ← vector id
    run (Op.markBound v)
    return .nothing
  | .markShared id => do
    let v ← vector id
    run (Op.markShared v)
    return .nothing
  | .view id => do
    match ← object id with
    | .vector _ => return .nothing
    | o => return .object (← viewObject o)
  | .stringInfo id => do return .stringInfo (← stringInfo (← string id))
  | .nativeText id => do
    let s ← string id
    match (← get).heap.nativeBytes? (.string s) with
    | some bytes => return .text (Utf8.decode bytes.untilZero)
    | none => return .nothing
  | .bytes id => do
    let o ← object id
    match (← get).heap.nativeBytes? o with
    | some bytes => return .bytes bytes
    | none => return .nothing
  | .poke id offset bytes => do
    poke (← object id) offset bytes
    return .nothing
  | .pokeHandle id offset of => do
    let h ← handleOf of
    poke (← object id) offset (Op.handleBytes h)
    return .nothing
  | .foreign name => do
    let b ← named (·.buffers) name
    return .bytes (← present ((← get).heap.buffers.find? b)).bytes
  | .sameAddress id other => do
    let a ← object id
    let b ← object other
    let h := (← get).heap
    return .flag (h.dataAddress a = h.dataAddress b)
  | .noteHandle id name => do
    let h ← handleOf id
    modify (fun s => { s with handles := s.handles.insert name h })
    return .handle h
  | .lookup h into => do
    let h ← handle h
    let o ← run (Op.lookup (← here) h)
    let view ← viewObject o
    match into with
    | some id => bindVariable id o
    | none => pure ()
    return .object view
  | .lookupVector h => do
    let h ← handle h
    match ← run (Op.lookup (← here) h) with
    | .vector v => return .object (← viewObject (.vector v))
    | .string _ => throw (.error (.representationMismatch .list .str))
  | .peer h => do
    match ← peerNamed? (← here) h with
    | some p => return .peer ((← get).viewPeer p)
    | none => return .nothing
  | .describePeer h => do
    match ← peerNamed? (← here) h with
    | some p => return if p.backing.address = 0 then .text p.describe else .nothing
    | none => return .nothing
  | .release h => do releaseTwice (← here) (← handle h)
  | .describeHandle h => do
    let c ← here
    let h ← handle h
    return .text ((← get).heap.describeHandle c h)
  | .site h => do
    let h ← handle h
    match (← run (Op.context (← here))).registry.site? h with
    | some site => return .text site
    | none => return .nothing
  | .noteAddress id name => do
    let o ← object id
    let address := (← get).heap.dataAddress o
    modify (fun s => { s with addresses := s.addresses.insert name address })
    return .flag (address ≠ 0)
  | .handleAt name => do
    let address ← named (·.addresses) name
    match (← run (Op.context (← here))).registry.handleAt? address with
    | some h => return .handle h
    | none => return .nothing
  | .newFrame name => do
    let f ← run Op.newFrame
    modify (fun s => { s with frames := s.frames.insert name f })
    return .nothing
  | .cloneFrame name into => do
    let f ← run (Op.cloneFrame (← frame name))
    modify (fun s => { s with frames := s.frames.insert into f })
    return .nothing
  | .dropFrame name => do
    let known := (← get).frames.contains name
    modify (fun s => { s with frames := s.frames.erase name })
    return .flag known
  | .assign f name v => do
    let f ← frame f
    let v ← value v
    viewPrevious (← run (Op.assign f name v))
  | .insertBinding f name v => do
    let f ← frame f
    let v ← value v
    viewPrevious (← run (Op.insertBinding f name v))
  | .binding f name => do
    let f ← frame f
    let v ← run (Op.binding? f name)
    return .binding (v.map (← get).viewValue)
  | .removeBinding f name => do
    let f ← frame f
    viewPrevious (← run (Op.removeBinding f name))
  | .frameNames f => do
    let f ← frame f
    return .names (← run (Op.frame f)).keys
  | .passArgument a constant => do
    let v ← value a
    match ← run (Op.passArgument ⟨v, constant⟩) with
    | some s => return .sharing s
    | none => return .nothing
  | .passArguments as => do
    let args ← arguments as
    run (Op.passArguments args)
    return .sharings (← sharingsOf args)
  | .same a b => do
    let a ← value a
    let b ← value b
    return .flag (a.same b)
  | .value a => do
    let v ← value a
    return .value ((← get).viewValue v)

end Action

namespace Session

def start (config : Config) : Session :=
  let c := (Store.empty : Store .context Context).fresh
  { heap := { contexts := Store.empty.add (.ofConfig config) },
    contexts := Table.empty.insert "main" c }

def exec (s : Session) (context : String) (command : Command) : Except Fault Reply × Session :=
  match Action.exec (Action.context context) command s with
  | .ok r s => (.ok r, s)
  | .error e s => (.error e, s)

def settle (s : Session) : Session := { s with heap := s.heap.settle s.roots }

/-- The first panic of a burial that was not reported, and the session with all reported. -/
def takePanic (s : Session) : Option Panic × Session :=
  (s.heap.panics.head?, { s with heap := { s.heap with panics := [] } })

/-- Executes a command and settles. A panic among the burials takes the place of the answer. -/
def step (s : Session) (context : String) (command : Command) : Except Fault Reply × Session :=
  let (r, s) := s.exec context command
  let (panic, s) := s.settle.takePanic
  (match panic with | some p => .error (.panic p) | none => r, s)

/-- Gives up all names. What dies then may still panic. -/
def close (s : Session) : Except Panic Unit :=
  match (settle { heap := s.heap }).takePanic.1 with
  | some p => .error p
  | none => .ok ()

def vectorState? (s : Session) (id : String) : Option VectorState :=
  match s.objects.find? id with
  | some (.vector v) => s.heap.vectorState? v
  | _ => none

def snapshots (s : Session) : List (String × Snapshot) :=
  s.contexts.entries.filterMap (fun (name, c) =>
    (s.heap.contexts.find? c).map (fun ctx => (name, ctx.snapshot)))

end Session
end VectorHeap
