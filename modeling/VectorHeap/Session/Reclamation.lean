import VectorHeap.Session.Run

/-! A reclaimer by itself. It belongs to a context of its own, whose registry never held the peers
that are handed in; those are registered in another context and their vectors stay alive. -/
namespace VectorHeap

inductive ReclaimerCommand
  | start
  | shutdown
  | newPeer
  /-- The k-th peer is handed in and the worker drained. -/
  | enqueue (k : Nat)
  | describe

inductive ReclaimerReply
  | nothing
  | handle (h : Handle)
  | text (s : String)
  /-- Whether nothing is pending, and whether the peer is released. -/
  | enqueued (idle released : Bool)

structure ReclaimerSession where
  heap : Heap
  own : ContextId
  other : ContextId
  peers : List PeerId

namespace ReclaimerSession

def start (name : String) : ReclaimerSession :=
  let empty : Store .context Context := .empty
  let own := empty.add (.ofConfig { workerName := name })
  { heap := { contexts := own.add (.ofConfig .default) },
    own := empty.fresh, other := own.fresh, peers := [] }

def reclaimer (s : ReclaimerSession) : Reclaimer :=
  ((s.heap.contexts.find? s.own).map (·.reclaimer)).getD default

def registrySize (s : ReclaimerSession) (c : ContextId) : Nat :=
  ((s.heap.contexts.find? c).map (·.registry.peers.size)).getD 0

def newPeer (c : ContextId) : Op (PeerId × Handle) := do
  let v ← Op.newVector c (.ofValues .int [(1 : Int32)])
  let p ← Op.ensureVectorPeer v
  return (p, (← Op.peer p).handle)

def step (s : ReclaimerSession) : ReclaimerCommand → Except Fault ReclaimerReply × ReclaimerSession
  | .start =>
    match s.reclaimer.start with
    | .ok r => (.ok .nothing, { s with heap := s.heap.modifyReclaimer s.own (fun _ => r) })
    | .error panic => (.error (.panic panic), s)
  | .shutdown => (.ok .nothing, { s with heap := (s.heap.shutdown s.own).drain s.own })
  | .newPeer =>
    match newPeer s.other s.heap with
    | .ok (p, h) heap => (.ok (.handle h), { s with heap, peers := s.peers ++ [p] })
    | .error e heap => (.error e, { s with heap })
  | .enqueue k =>
    match s.peers[k]? with
    | none => (.error .dead, s)
    | some p =>
      let s := { s with heap := (s.heap.reclaim s.own p).drain s.own }
      let released := ((s.heap.peers.find? p).map (·.released)).getD false
      match s.heap.panics with
      | panic :: _ => (.error (.panic panic), s)
      | [] => (.ok (.enqueued (s.reclaimer.pending = 0) released), s)
  | .describe => (.ok (.text s.reclaimer.describe), s)

end ReclaimerSession
end VectorHeap
