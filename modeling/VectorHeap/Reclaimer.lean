import VectorHeap.Fault
import VectorHeap.Store
import VectorHeap.Text.Utf8

/-! The reclamation worker of a context.
Peers of dead objects wait in a queue until the worker releases them. The worker starts with the
first of them and stops for good at shutdown; from then on a peer is released where it is handed in.
A worker whose name has a zero byte cannot be started, and the attempt is a panic.
Handing in a peer is done in steps that others may come between: it is counted as pending, then
dispatched, and it is finished after its release. -/
namespace VectorHeap

structure Reclaimer where
  name : String
  queue : List PeerId := []
  pending : Nat := 0
  released : Nat := 0
  running : Bool := false
  shutDown : Bool := false
deriving Inhabited

namespace Reclaimer

/-- Starts the worker unless it runs or was stopped. -/
def start (r : Reclaimer) : Except Panic Reclaimer :=
  if r.running || r.shutDown then .ok r
  else
    let bytes := Utf8.encode r.name
    match bytes.findIdx? (· == 0) with
    | some position => .error (.unusableName position bytes)
    | none => .ok { r with running := true }

def count (r : Reclaimer) : Reclaimer := { r with pending := r.pending + 1 }

/-- Starts the worker if it may and queues the peer. None when there is no worker to take it: the
caller then releases the peer itself. -/
def dispatch? (r : Reclaimer) (p : PeerId) : Except Panic (Option Reclaimer) := do
  let r ← r.start
  return if r.running then some { r with queue := r.queue ++ [p] } else none

def dequeue? (r : Reclaimer) : Option (PeerId × Reclaimer) :=
  match r.queue with
  | [] => none
  | p :: rest => some (p, { r with queue := rest })

/-- A peer counts as released only if this release was the one that ran. -/
def finish (r : Reclaimer) (released : Bool) : Reclaimer :=
  { r with released := if released then r.released + 1 else r.released, pending := r.pending - 1 }

/-- No more work is taken; what is queued stays for the worker to drain. -/
def stop (r : Reclaimer) : Reclaimer := { r with running := false, shutDown := true }

end Reclaimer
end VectorHeap
