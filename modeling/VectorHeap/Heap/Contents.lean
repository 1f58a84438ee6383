import VectorHeap.Heap.Peers
import VectorHeap.Native.Block

/-! Native contents: reading and writing slots, and the blocks they lie in.
Owned blocks are counted and indexed in the registry of their context. Sentinels and foreign buffers
are not. -/
namespace VectorHeap

namespace Heap

def contents (h : Heap) : Backing → Bytes
  | .owned _ bytes => bytes
  | .external _ b => ((h.buffers.find? b).map (·.bytes)).getD []
  | .empty _ | .unallocated => []

def overwrite (h : Heap) (p : PeerId) (offset : Nat) (data : Bytes) : Heap :=
  match ((h.peers.find? p).map (·.backing)).getD .unallocated with
  | .owned address bytes =>
    h.modifyPeer p (fun peer => { peer with backing := .owned address (bytes.overwrite offset data) })
  | .external _ b =>
    h.modifyBuffer b (fun buffer => { buffer with bytes := buffer.bytes.overwrite offset data })
  | .empty _ | .unallocated => h

end Heap

namespace Op

/-- The peer of a promoted object, which has contents unless they were released. -/
def allocated (p : PeerId) : Op Peer := do
  let peer ← peer p
  if peer.backing.address = 0 then halt .contentsNotAllocated
  return peer

/-- The contents of a peer, of which the bytes before a bound are accessed. -/
def contentsTo (peer : Peer) (stop : Nat) : Op Bytes := do
  let bytes := (← get).contents peer.backing
  if bytes.length < stop then halt .outsideContents
  return bytes

def accessed (p : PeerId) (width slot count : Nat) : Op Bytes := do
  let peer ← allocated p
  if max peer.capacity peer.length < slot + count then halt .slotPastEnd
  contentsTo peer ((slot + count) * width)

def readSlot (p : PeerId) (width slot : Nat) : Op Bytes :=
  return Bytes.slice (← accessed p width slot 1) (slot * width) width

def writeSlots (p : PeerId) (width slot : Nat) (data : Bytes) : Op Unit := do
  let _ ← accessed p width slot (data.length / width)
  modify (·.overwrite p (slot * width) data)

def readHandle (p : PeerId) (slot : Nat) : Op Handle :=
  return ⟨UInt64.ofNat (Bytes.toNat (← readSlot p 8 slot))⟩

def handleBytes (handle : Handle) : Bytes := .ofNat 8 handle.raw.toNat

def writeHandles (p : PeerId) (slot : Nat) (elements : List (Object × Handle)) : Op Unit := do
  unless elements.isEmpty do
    writeSlots p 8 slot (elements.flatMap (fun e => handleBytes e.2))
    modify (·.modifyPeer p (fun peer =>
      { peer with pins := pinFrom peer.pins slot (elements.map Prod.fst) }))

/-- An address for the block that the allocator is asked for. A refused request counts as well. -/
def request (size : Nat) (moved : Option Address) (answer : (Nat → Bool) → Except Error Bytes) :
    Op (Address × Bytes) := do
  let grants := (← get).grants
  let address ← place size moved
  let bytes ← ofError (answer grants)
  return (address, bytes)

def sentinelSize : Nat := 8

/-- The context's shared block for vectors without native slots, made when first needed. -/
def sentinel (c : ContextId) : Op Address := do
  let ctx ← context c
  match ctx.sentinel with
  | some address => return address
  | none =>
    let (address, _) ← request sentinelSize none (fun grants => Block.allocate sentinelSize grants)
    modify (·.modifyContext c (fun ctx => { ctx with sentinel := some address }))
    return address

def install (c : ContextId) (p : PeerId) (backing : Backing) (length capacity : Nat)
    (pins : List Object) : Op Unit := do
  let old ← peer p
  if old.backing.isAllocated then halt .contentsAllocated
  modify (·.modifyPeer p (fun peer => { peer with backing, length, capacity, pins }))
  modify (·.modifyRegistry c (·.addContents old.handle backing))

/-- The bytes of so many slots. A size that no word holds stops the operation. -/
def byteSize (width slots : Nat) : Op Nat :=
  if UInt64.size ≤ width * slots then halt .multiplyOverflow else pure (width * slots)

/-- A block of its own with the given contents, cut or zero-filled to a size. -/
def ownBlock (old : Bytes) (size : Nat) (moved : Option Address) : Op Backing := do
  let (address, bytes) ← request size moved (fun grants => Block.reallocate old size grants)
  return .owned address bytes

/-- The backing for a new size: the slots that both sizes have are kept, and foreign memory is
copied, never resized. -/
def resizedBacking (peer : Peer) (width size : Nat) (empty : Address) : Op Backing := do
  if size = 0 then return .empty empty
  match peer.backing with
  | .owned address bytes => ownBlock bytes size (some address)
  | .external .. =>
    let kept ← contentsTo peer (min (peer.capacity * width) size)
    ownBlock (kept.take (peer.capacity * width)) size none
  | .empty _ | .unallocated => ownBlock [] size none

def reallocate (c : ContextId) (p : PeerId) (width slots : Nat) (empty : Address) : Op Unit := do
  let size ← byteSize width slots
  let old ← peer p
  let backing ← resizedBacking old width size empty
  modify (·.modifyRegistry c (fun r =>
    (r.dropContents old.backing).addContents old.handle backing))
  modify (·.modifyPeer p (fun peer => { peer with backing, capacity := slots }))

end Op
end VectorHeap
