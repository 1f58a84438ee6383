import VectorHeap.Heap.Basic
import VectorHeap.Text.Quoted

/-! Peers of objects: assigning them, finding an object by its handle, and the handles and addresses
that an object shows. -/
namespace VectorHeap

namespace Heap

def peerOf? (h : Heap) : Object → Option PeerId
  | .vector v => (h.vectors.find? v).bind (·.peer)
  | .string s => (h.strings.find? s).bind (·.peer)

def isAlive (h : Heap) : Object → Bool
  | .vector v => h.vectors.contains v
  | .string s => h.strings.contains s

def handleOf (h : Heap) (o : Object) : Handle :=
  match (h.peerOf? o).bind h.peers.find? with
  | some p => p.handle
  | none => Handle.none

def backingOf (h : Heap) (o : Object) : Backing :=
  match (h.peerOf? o).bind h.peers.find? with
  | some p => p.backing
  | none => .unallocated

def dataAddress (h : Heap) (o : Object) : Address := (h.backingOf o).address

def isNA (h : Heap) : Elem → Bool
  | .int v => InlineType.int.isNA v
  | .double v => InlineType.double.isNA v
  | .logical v => InlineType.logical.isNA v
  | .complex v => InlineType.complex.isNA v
  | .raw _ => false
  | .str s => ((h.strings.find? s).map (·.isNA)).getD false
  | .list _ => false

def resolve? (h : Heap) (c : ContextId) (handle : Handle) : Option Object := do
  let ctx ← h.contexts.find? c
  let p ← ctx.registry.peer? handle
  let peer ← h.peers.find? p
  if h.isAlive peer.owner then some peer.owner else none

end Heap

namespace Op

def handleOf (o : Object) : Op Handle := return (← get).handleOf o

def isNA (e : Elem) : Op Bool := return (← get).isNA e

def lookup (c : ContextId) (handle : Handle) : Op Object := do
  let ctx ← context c
  match (← get).resolve? c handle with
  | some o => return o
  | none => fail (ctx.registry.invalidHandle handle)

/-- Draws a handle for an object and enters a peer under it. A handle that is taken stops the
operation after its entry went over to the new peer. -/
def register (c : ContextId) (owner : Object) (site : String) : Op PeerId := do
  let ctx ← context c
  let handle := ctx.registry.nextHandle
  let p ← addPeer { handle, owner }
  modify (·.modifyRegistry c (fun r => r.draw.enter handle p site))
  if (ctx.registry.peer? handle).isSome then halt (.registeredTwice handle)
  modify (·.modifyRegistry c (·.countRegistered))
  return p

def vectorSite (cell : VectorCell) : String :=
  s!"{cell.type.name} vector of length {cell.length}"

def stringSite (cell : StringCell) : String := "string element " ++ Quoted.quote cell.text

def ensureVectorPeer (v : VectorId) : Op PeerId := do
  let cell ← vector v
  match cell.peer with
  | some p => return p
  | none =>
    let p ← register cell.context (.vector v) (vectorSite cell)
    modify (·.modifyVector v (fun cell => { cell with peer := some p }))
    return p

/-- A string whose context is gone gets no peer, nor shows one that it has. -/
def ensureStringPeer (s : StringId) : Op PeerId := do
  let cell ← string s
  unless (← get).contexts.contains cell.context do fail .contextDropped
  match cell.peer with
  | some p => return p
  | none =>
    let p ← register cell.context (.string s) (stringSite cell)
    modify (·.modifyString s (fun cell => { cell with peer := some p }))
    return p

def ensurePeer : Object → Op PeerId
  | .vector v => ensureVectorPeer v
  | .string s => ensureStringPeer s

def ensureHandle (o : Object) : Op Handle := do
  let p ← ensurePeer o
  return (← peer p).handle

end Op
end VectorHeap
