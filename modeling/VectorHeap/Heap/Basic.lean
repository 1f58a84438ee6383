import VectorHeap.Buffer
import VectorHeap.Native.Block
import VectorHeap.Reclaimer
import VectorHeap.Registry
import VectorHeap.Sharing
import VectorHeap.Switches
import VectorHeap.Value

/-! The heap: contexts, vectors, strings, frames, peers and foreign buffers by identity.
An operation on the heap either answers or stops with a fault, and what it did before a fault stays
done. -/
namespace VectorHeap

/-- A vector has a managed buffer until it is promoted. From then on its contents are its peer's. -/
structure VectorCell where
  context : ContextId
  type : ElemType
  sharing : SharingState := .temporary
  length : Nat
  capacity : Nat
  /-- No element in use is missing. False promises nothing. -/
  complete : Bool
  buffer : Option Buffer
  peer : Option PeerId := none
deriving Inhabited

/-- A string never changes. It does not keep its context alive. -/
structure StringCell where
  context : ContextId
  text : String
  isNA : Bool := false
  peer : Option PeerId := none
deriving Inhabited

structure Context where
  config : Config
  registry : Registry
  reclaimer : Reclaimer
  switches : Switches := .initial
  /-- The block that every vector without native slots points at, once one was needed. -/
  sentinel : Option Address := none
  naString : Option StringId := none
deriving Inhabited

def Context.ofConfig (c : Config) : Context :=
  { config := c, registry := .ofConfig c, reclaimer := { name := c.workerName } }

/-- Memory of native code. It is never freed here. -/
structure ForeignBuffer where
  address : Address
  bytes : Bytes
deriving Inhabited

structure Heap where
  contexts : Store .context Context := .empty
  vectors : Store .vector VectorCell := .empty
  strings : Store .string StringCell := .empty
  frames : Store .frame Frame := .empty
  peers : Store .peer Peer := .empty
  buffers : Store .buffer ForeignBuffer := .empty
  /-- What the allocator makes of its n-th request, by the bytes asked for: none when it refuses, or the
  address that it would like to give. -/
  supply : Nat → Nat → Option Address :=
    fun n bytes => if Block.ample bytes then some (64 * (n + 1)) else none
  allocations : Nat := 0
  /-- Panics of burials that were not reported yet, the first one first. -/
  panics : List Panic := []

inductive Fault
  | error (e : Error)
  | panic (p : Panic)
  /-- An identity of a dead object was used. -/
  | dead
  /-- A retried operation did not settle. -/
  | unsettled
deriving DecidableEq

namespace Heap

/-! ### Updates -/

def modifyContext (h : Heap) (c : ContextId) (f : Context → Context) : Heap :=
  { h with contexts := h.contexts.modify c f }

def modifyRegistry (h : Heap) (c : ContextId) (f : Registry → Registry) : Heap :=
  h.modifyContext c (fun ctx => { ctx with registry := f ctx.registry })

def modifyReclaimer (h : Heap) (c : ContextId) (f : Reclaimer → Reclaimer) : Heap :=
  h.modifyContext c (fun ctx => { ctx with reclaimer := f ctx.reclaimer })

def modifyVector (h : Heap) (v : VectorId) (f : VectorCell → VectorCell) : Heap :=
  { h with vectors := h.vectors.modify v f }

def modifyString (h : Heap) (s : StringId) (f : StringCell → StringCell) : Heap :=
  { h with strings := h.strings.modify s f }

def modifyPeer (h : Heap) (p : PeerId) (f : Peer → Peer) : Heap :=
  { h with peers := h.peers.modify p f }

def modifyFrame (h : Heap) (f : FrameId) (g : Frame → Frame) : Heap :=
  { h with frames := h.frames.modify f g }

def modifyBuffer (h : Heap) (b : BufferId) (f : ForeignBuffer → ForeignBuffer) : Heap :=
  { h with buffers := h.buffers.modify b f }

/-! ### Addresses -/

/-- Blocks that are not freed, sentinels and foreign buffers. -/
def liveAddresses (h : Heap) : List Address :=
  h.peers.values.filterMap (fun p => p.backing.owned?.map Prod.fst) ++
    h.contexts.values.filterMap (·.sentinel) ++ h.buffers.values.map (·.address)

/-- Whether the allocator grants the next request, by its size. -/
def grants (h : Heap) (bytes : Nat) : Bool := (h.supply h.allocations bytes).isSome

/-- Where the next block comes to lie: where the allocator likes unless something else lies there,
and then above everything. A block being moved may stay. -/
def placement (h : Heap) (bytes : Nat) (moved : Option Address) : Address :=
  let taken := h.liveAddresses.filter (fun a => some a ≠ moved)
  let wish := (h.supply h.allocations bytes).getD 0
  if wish = 0 ∨ wish ∈ taken then taken.foldl max 0 + 1 else wish

end Heap

/-! ### Operations -/

abbrev Op := EStateM Fault Heap

namespace Op

def fail {α : Type} (e : Error) : Op α := throw (.error e)

def halt {α : Type} (p : Panic) : Op α := throw (.panic p)

def ofError {α : Type} : Except Error α → Op α
  | .ok a => pure a
  | .error e => fail e

def ofPanic {α : Type} : Except Panic α → Op α
  | .ok a => pure a
  | .error p => halt p

def live {α : Type} : Option α → Op α
  | some a => pure a
  | none => throw .dead

def context (c : ContextId) : Op Context := do live ((← get).contexts.find? c)

def vector (v : VectorId) : Op VectorCell := do live ((← get).vectors.find? v)

def string (s : StringId) : Op StringCell := do live ((← get).strings.find? s)

def peer (p : PeerId) : Op Peer := do live ((← get).peers.find? p)

def frame (f : FrameId) : Op Frame := do live ((← get).frames.find? f)

/-! Each new object gets an identity that was never used. -/

def addContext (c : Context) : Op ContextId :=
  modifyGet (fun h => (h.contexts.fresh, { h with contexts := h.contexts.add c }))

def addVector (cell : VectorCell) : Op VectorId :=
  modifyGet (fun h => (h.vectors.fresh, { h with vectors := h.vectors.add cell }))

def addString (cell : StringCell) : Op StringId :=
  modifyGet (fun h => (h.strings.fresh, { h with strings := h.strings.add cell }))

def addPeer (p : Peer) : Op PeerId :=
  modifyGet (fun h => (h.peers.fresh, { h with peers := h.peers.add p }))

def addFrame (f : Frame) : Op FrameId :=
  modifyGet (fun h => (h.frames.fresh, { h with frames := h.frames.add f }))

def addBuffer (b : ForeignBuffer) : Op BufferId :=
  modifyGet (fun h => (h.buffers.fresh, { h with buffers := h.buffers.add b }))

/-- What one pass over a retried operation comes to: an answer, or what the next pass starts from. -/
inductive Pass (σ α : Type)
  | done (a : α)
  | again (s : σ)

/-- Passes until one is done, at most so many. -/
def retry {σ α : Type} (pass : σ → Op (Pass σ α)) : Nat → σ → Op α
  | 0, _ => throw .unsettled
  | n + 1, s => do
    match ← pass s with
    | .done a => pure a
    | .again s' => retry pass n s'

/-- Takes an address for a new block, or for one that moves. -/
def place (bytes : Nat) (moved : Option Address) : Op Address := do
  let h ← get
  let address := h.placement bytes moved
  set { h with allocations := h.allocations + 1 }
  return address

/-- Memory of native code with the given bytes. Native code has them before it shows them. -/
def newBuffer (bytes : Bytes) : Op BufferId := do
  let address ← place bytes.length none
  addBuffer { address, bytes }

end Op
end VectorHeap
