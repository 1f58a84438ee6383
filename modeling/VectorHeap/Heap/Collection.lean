import VectorHeap.Heap.Peers

/-! Life and death of objects.
An object lives while a strong reference to it is left: a root, or a reference out of a live object.
The dead are buried at once. A buried vector or string hands its peer to the reclaimer of its
context, and the release of a peer drops its pins, so one death may bring about others. Cycles keep
each other alive. -/
namespace VectorHeap

inductive Ref
  | context (c : ContextId)
  | vector (v : VectorId)
  | string (s : StringId)
  | frame (f : FrameId)
  | peer (p : PeerId)
deriving DecidableEq

namespace Ref

def ofObject : Object → Ref
  | .vector v => vector v
  | .string s => string s

def context? : Ref → Option ContextId
  | context c => some c
  | _ => none

def vector? : Ref → Option VectorId
  | vector v => some v
  | _ => none

def string? : Ref → Option StringId
  | string s => some s
  | _ => none

def frame? : Ref → Option FrameId
  | frame f => some f
  | _ => none

def peer? : Ref → Option PeerId
  | peer p => some p
  | _ => none

end Ref

/-! ### References out of an object -/

def Value.refs : Value → List Ref
  | .null => []
  | .vector v => [.vector v]
  | .string s => [.string s]
  | .dataFrame columns => [.vector columns]
  | .factor codes levels => [.vector codes, .vector levels]
  | .environment f => [.frame f]

def Buffer.refs (b : Buffer) : List Ref := (b.slots.filterMap Elem.object?).map Ref.ofObject

def VectorCell.refs (cell : VectorCell) : List Ref :=
  .context cell.context :: (cell.peer.toList.map .peer ++ (cell.buffer.toList.flatMap Buffer.refs))

/-- The context is not among them. -/
def StringCell.refs (cell : StringCell) : List Ref := cell.peer.toList.map .peer

/-- The owner is not among them. -/
def Peer.refs (p : Peer) : List Ref := p.pins.map Ref.ofObject

def Context.refs (c : Context) : List Ref :=
  c.naString.toList.map .string ++ c.registry.peers.values.map .peer ++ c.reclaimer.queue.map .peer

namespace Heap

def refs (h : Heap) : List Ref :=
  h.vectors.values.flatMap VectorCell.refs ++ h.strings.values.flatMap StringCell.refs ++
    h.peers.values.flatMap Peer.refs ++ h.contexts.values.flatMap Context.refs ++
    h.frames.values.flatMap (fun f => f.values.flatMap Value.refs)

def population (h : Heap) : Nat :=
  h.contexts.ids.length + h.vectors.ids.length + h.strings.ids.length + h.frames.ids.length +
    h.peers.ids.length

def isIdle (h : Heap) (c : ContextId) : Bool :=
  ((h.contexts.find? c).map (fun ctx => ctx.reclaimer.queue.isEmpty)).getD true

def unheld {k : Kind} (ids held : List (Id k)) : List (Id k) := ids.filter (fun i => !held.contains i)

/-- Objects without a strong reference. A context stays until its reclaimer has nothing queued. -/
def dead (h : Heap) (roots : List Ref) : List Ref :=
  let held := roots ++ h.refs
  ((unheld h.contexts.ids (held.filterMap Ref.context?)).filter h.isIdle).map .context ++
    (unheld h.vectors.ids (held.filterMap Ref.vector?)).map .vector ++
    (unheld h.strings.ids (held.filterMap Ref.string?)).map .string ++
    (unheld h.frames.ids (held.filterMap Ref.frame?)).map .frame ++
    (unheld h.peers.ids (held.filterMap Ref.peer?)).map .peer

/-! ### Release -/

def mark (h : Heap) (p : PeerId) : Heap := h.modifyPeer p (fun peer => { peer with released := true })

def free (h : Heap) (p : PeerId) : Heap :=
  h.modifyPeer p (fun peer => { peer with backing := .unallocated })

def unpin (h : Heap) (p : PeerId) : Heap := h.modifyPeer p (fun peer => { peer with pins := [] })

/-- Takes a peer out of the registry and gives up its contents and its pins. A block is free before
it is off the index of addresses. -/
def unwind (h : Heap) (c : ContextId) (p : PeerId) : Heap :=
  match h.peers.find? p with
  | none => h
  | some peer =>
    let freed := (h.modifyRegistry c (·.remove peer.handle p)).free p
    let unindexed := freed.modifyRegistry c (·.unindex peer.backing)
    (unindexed.modifyRegistry c (·.noteFreed peer.backing)).unpin p

/-- Only the first release of a peer does anything. -/
def release (h : Heap) (c : ContextId) (p : PeerId) : Heap × Bool :=
  match h.peers.find? p with
  | none => (h, false)
  | some peer => if peer.released then (h, false) else ((h.mark p).unwind c p, true)

def finishPeer (h : Heap) (c : ContextId) (p : PeerId) : Heap :=
  let (h, released) := h.release c p
  h.modifyReclaimer c (·.finish released)

/-- Hands a peer to the reclaimer of a context, and tells whether it comes back. A panic leaves the
peer as it is, counted as pending for good. -/
def handIn (h : Heap) (c : ContextId) (p : PeerId) : Heap × Bool :=
  let h := h.modifyReclaimer c (·.count)
  match (h.contexts.find? c).map (fun (ctx : Context) => ctx.reclaimer.dispatch? p) with
  | some (.ok (some r)) => (h.modifyReclaimer c (fun _ => r), false)
  | some (.error panic) => ({ h with panics := h.panics ++ [panic] }, false)
  | _ => (h, true)

/-- What no worker takes is released at once. -/
def reclaim (h : Heap) (c : ContextId) (p : PeerId) : Heap :=
  let (h, back) := h.handIn c p
  if back then h.finishPeer c p else h

/-- One turn of a context's worker: it takes a peer, releases it and counts it. -/
def work (h : Heap) (c : ContextId) : Heap :=
  match (h.contexts.find? c).bind (fun ctx => ctx.reclaimer.dequeue?) with
  | none => h
  | some (p, r) => (h.modifyReclaimer c (fun _ => r)).finishPeer c p

def shutdown (h : Heap) (c : ContextId) : Heap := h.modifyReclaimer c (·.stop)

/-! ### Burial -/

def without (h : Heap) : Ref → Heap
  | .context c => { h with contexts := h.contexts.erase c }
  | .vector v => { h with vectors := h.vectors.erase v }
  | .string s => { h with strings := h.strings.erase s }
  | .frame f => { h with frames := h.frames.erase f }
  | .peer p => { h with peers := h.peers.erase p }

/-- The peer that an object leaves behind, and the context it is handed in to. A string whose context
is gone has no reclaimer to hand its peer to. -/
def legacy? (h : Heap) : Ref → Option (ContextId × PeerId)
  | .vector v => (h.vectors.find? v).bind (fun cell => cell.peer.map (fun p => (cell.context, p)))
  | .string s =>
    ((h.strings.find? s).bind (fun cell => cell.peer.map (fun p => (cell.context, p)))).filter
      (fun (c, _) => h.contexts.contains c)
  | _ => none

def bury (h : Heap) (r : Ref) : Heap :=
  match h.legacy? r with
  | some (c, p) => (h.without r).reclaim c p
  | none => h.without r

def collectWithin (roots : List Ref) : Nat → Heap → Heap
  | 0, h => h
  | n + 1, h =>
    match h.dead roots with
    | [] => h
    | rs => collectWithin roots n (rs.foldl bury h)

def collect (h : Heap) (roots : List Ref) : Heap := collectWithin roots h.population h

def drain (h : Heap) (c : ContextId) : Heap :=
  let queued := ((h.contexts.find? c).map (fun ctx => ctx.reclaimer.queue.length)).getD 0
  (List.range queued).foldl (fun h _ => h.work c) h

def drainAll (h : Heap) : Heap := h.contexts.ids.foldl drain h

def settleWithin (roots : List Ref) : Nat → Heap → Heap
  | 0, h => h
  | n + 1, h =>
    let h := h.collect roots
    if h.contexts.ids.all h.isIdle then h else settleWithin roots n h.drainAll

/-- Collects and lets the workers run until all are idle. Peers queued again come from objects that
died since, so there are no more rounds than objects. -/
def settle (h : Heap) (roots : List Ref) : Heap := settleWithin roots (h.population + 2) h

end Heap
end VectorHeap
