import VectorHeap.Proofs.Heap.Burial

/-! The threads at a reclaimer.
Any number of threads hand in peers, start the worker and shut the reclaimer down, while the worker
takes peers off the queue. What a thread does at once is one step, and the steps of different
threads come in any order. A release has two of them: whoever marks the peer is the one to unwind
it. The pins that it drops may be the last references to objects whose peers the same thread then
hands in before its release is over. -/
namespace VectorHeap

namespace Heap

variable {h : Heap} {c d : ContextId} {p : PeerId}

def reclaimer? (h : Heap) (c : ContextId) : Option Reclaimer :=
  (h.contexts.find? c).map (·.reclaimer)

@[simp] theorem reclaimer_modifyReclaimer (h : Heap) (c : ContextId) (f : Reclaimer → Reclaimer) :
    (h.modifyReclaimer c f).reclaimer? c = (h.reclaimer? c).map f := by
  rw [reclaimer?, modifyReclaimer, modifyContext, Store.find_modify_self, reclaimer?,
    Option.map_map, Option.map_map]
  rfl

@[simp] theorem reclaimer_modifyPeer (h : Heap) (p : PeerId) (f : Peer → Peer) :
    (h.modifyPeer p f).reclaimer? c = h.reclaimer? c := rfl

@[simp] theorem reclaimer_modifyRegistry (h : Heap) (d : ContextId) (f : Registry → Registry) :
    (h.modifyRegistry d f).reclaimer? c = h.reclaimer? c :=
  h.contexts.map_find_modify d c _ (·.reclaimer) (fun _ _ => rfl)

def released? (h : Heap) (p : PeerId) : Option Bool := (h.peers.find? p).map (·.released)

theorem released_eq {q : Peer} (hq : h.peers.find? p = some q) :
    h.released? p = some q.released := by
  rw [released?, hq]
  rfl

@[simp] theorem released_free (h : Heap) (p i : PeerId) : (h.free p).released? i = h.released? i :=
  h.peers.map_find_modify p i _ (·.released) (fun _ _ => rfl)

@[simp] theorem released_unpin (h : Heap) (p i : PeerId) : (h.unpin p).released? i = h.released? i :=
  h.peers.map_find_modify p i _ (·.released) (fun _ _ => rfl)

@[simp] theorem released_modifyRegistry (h : Heap) (d : ContextId) (f : Registry → Registry)
    (i : PeerId) : (h.modifyRegistry d f).released? i = h.released? i := rfl

/-! ### The two steps of a release -/

theorem release_of_unreleased {q : Peer} (hq : h.peers.find? p = some q) (live : q.released = false)
    (c : ContextId) : h.release c p = ((h.mark p).unwind c p, true) := by
  simp [release, hq, live]

theorem release_of_released {q : Peer} (hq : h.peers.find? p = some q) (gone : q.released = true)
    (c : ContextId) : h.release c p = (h, false) := by
  rw [release_eq hq, gone]
  rfl

@[simp] theorem reclaimer_mark (h : Heap) (p : PeerId) : (h.mark p).reclaimer? c = h.reclaimer? c :=
  rfl

@[simp] theorem reclaimer_unwind (h : Heap) (d : ContextId) (p : PeerId) :
    (h.unwind d p).reclaimer? c = h.reclaimer? c := by
  unfold unwind
  split
  · rfl
  · simp only [unpin, free, reclaimer_modifyPeer, reclaimer_modifyRegistry]

theorem released_mark (live : h.released? p = some false) (i : PeerId) :
    (h.mark p).released? i = if p = i then some true else h.released? i := by
  obtain ⟨q, hq, _⟩ := Option.map_eq_some_iff.mp live
  rw [released?, mark, modifyPeer, Store.find_modify]
  split
  · rename_i same
    subst same
    rw [hq]
    rfl
  · rfl

@[simp] theorem released_unwind (h : Heap) (d : ContextId) (p i : PeerId) :
    (h.unwind d p).released? i = h.released? i := by
  unfold unwind
  split
  · rfl
  · simp only [released_unpin, released_modifyRegistry, released_free]

theorem next_unwind (h : Heap) (d : ContextId) (p : PeerId) :
    (h.unwind d p).peers.next = h.peers.next := by
  unfold unwind
  split <;> rfl

theorem release_ran {h' : Heap} (ran : h.release d p = (h', true)) :
    h.released? p = some false ∧ h' = (h.mark p).unwind d p := by
  cases hq : h.peers.find? p with
  | none =>
    unfold release at ran
    rw [hq] at ran
    exact absurd (congrArg Prod.snd ran) (by simp)
  | some q =>
    cases live : q.released with
    | true =>
      rw [release_of_released hq live] at ran
      exact absurd (congrArg Prod.snd ran) (by simp)
    | false =>
      rw [release_of_unreleased hq live] at ran
      exact ⟨by rw [released_eq hq, live], (congrArg Prod.fst ran).symm⟩

end Heap

namespace Reclaimer

/-! ### Threads -/

inductive Stage
  | counted
  /-- To be released by the thread that has it: the worker, or a caller that no worker serves. -/
  | taken
  | marked
  | dropping
  /-- Found to be marked already. -/
  | passed
deriving DecidableEq

inductive Activity
  | handIn (p : PeerId) (stage : Stage)
  /-- A shutdown that closed a queue with these peers in it, or found none to close. -/
  | shutdown (closed : Option (List PeerId))
deriving DecidableEq

/-- A worker that is gone is never replaced. -/
inductive WorkerState
  | unborn | alive | gone
deriving DecidableEq

/-- What threads do that others can tell. -/
inductive Event
  | counted (p : PeerId)
  | queued (p : PeerId)
  /-- No worker is there to take the peer. -/
  | refused (p : PeerId)
  /-- The worker cannot be started, and the call ends in a panic. -/
  | stuck (p : PeerId)
  | dequeued (p : PeerId)
  | marked (p : PeerId)
  | passed (p : PeerId)
  | unwound (p : PeerId)
  /-- The flag tells whether the release was the one that ran. -/
  | finished (p : PeerId) (ran : Bool)
  | started
  | stopped (closed : Option (List PeerId))
  /-- A shutdown returns, to a caller or within the worker. -/
  | returned (outside : Bool) (closed : Option (List PeerId))
  | exited
  | apart (p : PeerId)
  | elsewhere
deriving DecidableEq

/-- What one thread sees: the heap, how the worker is, and what it is at itself, the innermost
first. -/
structure View where
  heap : Heap
  worker : WorkerState
  stack : List Activity

/-- A caller can make a call when it is at nothing. So can any thread while it drops pins. -/
def CanCall (outside : Bool) : List Activity → Prop
  | [] => outside = true
  | .handIn _ .dropping :: _ => True
  | _ => False

def open? (r : Reclaimer) : Option (List PeerId) := if r.running then some r.queue else none

def Stage.last (ran : Bool) : Stage := if ran then .dropping else .passed

/-- The steps of one thread at the reclaimer of a context. -/
inductive Move (c : ContextId) (outside : Bool) : View → Event → View → Prop
  | count {h : Heap} {w : WorkerState} {stack : List Activity} {p : PeerId} {released : Bool}
      (idle : CanCall outside stack) (there : h.released? p = some released) :
    Move c outside ⟨h, w, stack⟩ (.counted p)
      ⟨h.modifyReclaimer c (·.count), w, .handIn p .counted :: stack⟩
  | queue {h : Heap} {w : WorkerState} {rest : List Activity} {p : PeerId} {r r' : Reclaimer}
      (found : h.reclaimer? c = some r) (dispatched : r.dispatch? p = .ok (some r')) :
    Move c outside ⟨h, w, .handIn p .counted :: rest⟩ (.queued p)
      ⟨h.modifyReclaimer c (fun _ => r'), .alive, rest⟩
  | refuse {h : Heap} {w : WorkerState} {rest : List Activity} {p : PeerId} {r : Reclaimer}
      (found : h.reclaimer? c = some r) (dispatched : r.dispatch? p = .ok none) :
    Move c outside ⟨h, w, .handIn p .counted :: rest⟩ (.refused p) ⟨h, w, .handIn p .taken :: rest⟩
  /-- The worker may be started, but the system has no thread for it. -/
  | lack {h : Heap} {w : WorkerState} {rest : List Activity} {p : PeerId} {r r' : Reclaimer}
      (found : h.reclaimer? c = some r) (idle : r.running = false) (startable : r.start = .ok r') :
    Move c outside ⟨h, w, .handIn p .counted :: rest⟩ (.refused p) ⟨h, w, .handIn p .taken :: rest⟩
  | panic {h : Heap} {w : WorkerState} {rest : List Activity} {p : PeerId} {r : Reclaimer}
      {panic : Panic} (found : h.reclaimer? c = some r)
      (dispatched : r.dispatch? p = .error panic) :
    Move c outside ⟨h, w, .handIn p .counted :: rest⟩ (.stuck p)
      ⟨{ h with panics := h.panics ++ [panic] }, w, rest⟩
  | mark {h : Heap} {w : WorkerState} {rest : List Activity} {p : PeerId}
      (live : h.released? p = some false) :
    Move c outside ⟨h, w, .handIn p .taken :: rest⟩ (.marked p)
      ⟨h.mark p, w, .handIn p .marked :: rest⟩
  | pass {h : Heap} {w : WorkerState} {rest : List Activity} {p : PeerId}
      (gone : h.released? p = some true) :
    Move c outside ⟨h, w, .handIn p .taken :: rest⟩ (.passed p) ⟨h, w, .handIn p .passed :: rest⟩
  | unwind {h : Heap} {w : WorkerState} {rest : List Activity} {p : PeerId} :
    Move c outside ⟨h, w, .handIn p .marked :: rest⟩ (.unwound p)
      ⟨h.unwind c p, w, .handIn p .dropping :: rest⟩
  | finish {h : Heap} {w : WorkerState} {rest : List Activity} {p : PeerId} (ran : Bool) :
    Move c outside ⟨h, w, .handIn p (.last ran) :: rest⟩ (.finished p ran)
      ⟨h.modifyReclaimer c (·.finish ran), w, rest⟩
  | start {h : Heap} {w : WorkerState} {stack : List Activity} {r r' : Reclaimer}
      (idle : CanCall outside stack) (found : h.reclaimer? c = some r) (started : r.start = .ok r')
      (running : r'.running = true) :
    Move c outside ⟨h, w, stack⟩ .started ⟨h.modifyReclaimer c (fun _ => r'), .alive, stack⟩
  | close {h : Heap} {w : WorkerState} {stack : List Activity} {r : Reclaimer}
      (idle : CanCall outside stack) (found : h.reclaimer? c = some r) :
    Move c outside ⟨h, w, stack⟩ (.stopped r.open?) ⟨h.shutdown c, w, .shutdown r.open? :: stack⟩
  /-- Whoever closed the queue waits for the worker, except the worker. -/
  | leave {h : Heap} {w : WorkerState} {rest : List Activity} {closed : Option (List PeerId)}
      (joined : outside = true → closed.isSome = true → w = .gone) :
    Move c outside ⟨h, w, .shutdown closed :: rest⟩ (.returned outside closed) ⟨h, w, rest⟩

/-! ### All threads -/

/-- What the rest of the program does to a heap. Each peer has a mark of its own for ever. -/
structure Elsewhere (c : ContextId) (h h' : Heap) : Prop where
  reclaimer : h'.reclaimer? c = h.reclaimer? c
  next : h.peers.next ≤ h'.peers.next
  peer : ∀ p released, h'.released? p = some released →
    h.released? p = some released ∨ (h.peers.next ≤ p.index ∧ released = false)

structure Threads where
  heap : Heap
  worker : WorkerState := .unborn
  work : List Activity := []
  callers : List (List Activity)

namespace Threads

/-- What any thread is at. -/
def inHand (s : Threads) : List Activity := s.work ++ s.callers.flatten

def opening (h : Heap) (n : Nat) : Threads := { heap := h, callers := List.replicate n [] }

inductive Step (c : ContextId) : Threads → Event → Threads → Prop
  | caller {s : Threads} {before after : List (List Activity)} {stack : List Activity} {e : Event}
      {v : View} (one : s.callers = before ++ stack :: after)
      (move : Move c true ⟨s.heap, s.worker, stack⟩ e v) :
    Step c s e ⟨v.heap, v.worker, s.work, before ++ v.stack :: after⟩
  | worker {s : Threads} {e : Event} {v : View}
      (move : Move c false ⟨s.heap, s.worker, s.work⟩ e v) :
    Step c s e ⟨v.heap, v.worker, v.stack, s.callers⟩
  | dequeue {s : Threads} {p : PeerId} {r r' : Reclaimer} (alive : s.worker = .alive)
      (waiting : s.work = []) (found : s.heap.reclaimer? c = some r)
      (next : r.dequeue? = some (p, r')) :
    Step c s (.dequeued p)
      { s with heap := s.heap.modifyReclaimer c (fun _ => r'), work := [.handIn p .taken] }
  /-- The worker waits for more as long as the queue is open. -/
  | exit {s : Threads} {r : Reclaimer} (alive : s.worker = .alive) (waiting : s.work = [])
      (found : s.heap.reclaimer? c = some r) (closed : r.running = false) (drained : r.queue = []) :
    Step c s .exited { s with worker := .gone }
  | apart {s : Threads} {d : ContextId} {p : PeerId} {h' : Heap}
      (ran : s.heap.release d p = (h', true)) :
    Step c s (.apart p) { s with heap := h' }
  | elsewhere {s : Threads} {h' : Heap} (other : Elsewhere c s.heap h') :
    Step c s .elsewhere { s with heap := h' }

/-- What happened, the last first. -/
inductive Run (c : ContextId) (s₀ : Threads) : List Event → Threads → Prop
  | start : Run c s₀ [] s₀
  | step {es : List Event} {e : Event} {s s' : Threads} (first : Run c s₀ es s)
      (last : Step c s e s') : Run c s₀ (e :: es) s'

end Threads

/-! ### What a step does
Its event says what becomes of the reclaimer, of the worker and of what the threads are at. -/

variable {r r' : Reclaimer} {p : PeerId}

theorem start_cases (started : r.start = .ok r') :
    (r' = r ∧ (r.running = true ∨ r.shutDown = true)) ∨
    (r' = { r with running := true } ∧ r.running = false ∧ r.shutDown = false) := by
  unfold start at started
  split at started
  · rename_i idle
    cases started
    exact .inl ⟨rfl, by simpa using idle⟩
  · rename_i idle
    dsimp only at started
    split at started
    · exact absurd started (by simp)
    · cases started
      exact .inr ⟨rfl, by simpa using idle⟩

theorem start_error {panic : Panic} (failed : r.start = .error panic) :
    r.running = false ∧ r.shutDown = false := by
  unfold start at failed
  split at failed
  · exact absurd failed (by simp)
  · rename_i idle
    simpa using idle

theorem start_running (started : r.start = .ok r') (running : r'.running = true) :
    r' = { r with running := true } ∧ (r.running = true ∨ r.shutDown = false) := by
  rcases start_cases started with ⟨rfl, _⟩ | ⟨rfl, _, unstopped⟩
  · exact ⟨by rw [← running], .inl running⟩
  · exact ⟨rfl, .inr unstopped⟩

theorem dispatch_some (dispatched : r.dispatch? p = .ok (some r')) :
    r' = { r with running := true, queue := r.queue ++ [p] } ∧
      (r.running = true ∨ r.shutDown = false) := by
  unfold dispatch? at dispatched
  cases started : r.start with
  | error panic => simp [started, bind, Except.bind] at dispatched
  | ok r₁ =>
    rw [started] at dispatched
    cases running : r₁.running with
    | false => simp [bind, Except.bind, pure, Except.pure, running] at dispatched
    | true =>
      simp only [bind, Except.bind, pure, Except.pure, running, if_true] at dispatched
      cases dispatched
      obtain ⟨rfl, unstopped⟩ := start_running started running
      exact ⟨rfl, unstopped⟩

theorem dispatch_error {panic : Panic} (failed : r.dispatch? p = .error panic) :
    r.running = false ∧ r.shutDown = false := by
  unfold dispatch? at failed
  cases started : r.start with
  | error panic => exact start_error started
  | ok r₁ => simp [started, bind, Except.bind, pure, Except.pure] at failed

theorem dispatch_stopped (stopped : r.shutDown = true) (idle : r.running = false) (p : PeerId) :
    r.dispatch? p = .ok none := by
  simp [dispatch?, start, stopped, idle, bind, Except.bind, pure, Except.pure]

theorem open_eq_some {ps : List PeerId} (open_ : r.open? = some ps) :
    r.running = true ∧ r.queue = ps := by
  unfold open? at open_
  split at open_
  · rename_i running
    exact ⟨running, Option.some.inj open_⟩
  · exact absurd open_ (by simp)

@[simp] def after (r : Reclaimer) : Event → Reclaimer
  | .counted _ => r.count
  | .queued p => { r with running := true, queue := r.queue ++ [p] }
  | .dequeued _ => { r with queue := r.queue.tail }
  | .finished _ ran => r.finish ran
  | .started => { r with running := true }
  | .stopped _ => r.stop
  | _ => r

def Admits (r : Reclaimer) : Event → Prop
  | .queued _ | .started => r.running = true ∨ r.shutDown = false
  | .stuck _ => r.running = false ∧ r.shutDown = false
  | .dequeued p => r.queue.head? = some p
  | .stopped closed => closed = r.open?
  | .exited => r.running = false ∧ r.queue = []
  | _ => True

@[simp] def WorkerState.after (w : WorkerState) : Event → WorkerState
  | .queued _ | .started => .alive
  | .exited => .gone
  | _ => w

namespace Event

@[simp] def marks? : Event → Option PeerId
  | marked p | apart p => some p
  | _ => none

@[simp] def leaves : Event → List Activity
  | queued p | refused p | stuck p => [.handIn p .counted]
  | marked p | passed p => [.handIn p .taken]
  | unwound p => [.handIn p .marked]
  | finished p ran => [.handIn p (.last ran)]
  | returned _ closed => [.shutdown closed]
  | _ => []

@[simp] def enters : Event → List Activity
  | counted p => [.handIn p .counted]
  | refused p | dequeued p => [.handIn p .taken]
  | marked p => [.handIn p .marked]
  | passed p => [.handIn p .passed]
  | unwound p => [.handIn p .dropping]
  | stopped closed => [.shutdown closed]
  | _ => []

end Event

variable {c : ContextId} {outside : Bool} {v v' : View} {e : Event}

theorem Move.stack (move : Move c outside v e v') :
    ∃ rest, v.stack = e.leaves ++ rest ∧ v'.stack = e.enters ++ rest := by
  cases move <;> exact ⟨_, rfl, rfl⟩

theorem Move.worker (move : Move c outside v e v') : v'.worker = v.worker.after e := by
  cases move <;> rfl

theorem Move.reclaimer (move : Move c outside v e v') (found : v.heap.reclaimer? c = some r) :
    v'.heap.reclaimer? c = some (r.after e) ∧ r.Admits e := by
  cases move with
  | count | finish => exact ⟨by rw [Heap.reclaimer_modifyReclaimer, found]; rfl, trivial⟩
  | queue found' dispatched =>
    cases found.symm.trans found'
    obtain ⟨rfl, unstopped⟩ := Reclaimer.dispatch_some dispatched
    exact ⟨by rw [Heap.reclaimer_modifyReclaimer, found]; rfl, unstopped⟩
  | refuse | lack | pass | leave => exact ⟨found, trivial⟩
  | panic found' dispatched =>
    cases found.symm.trans found'
    exact ⟨found, Reclaimer.dispatch_error dispatched⟩
  | mark => exact ⟨(Heap.reclaimer_mark _ _).trans found, trivial⟩
  | unwind => exact ⟨(Heap.reclaimer_unwind _ _ _).trans found, trivial⟩
  | start idle found' started running =>
    cases found.symm.trans found'
    obtain ⟨rfl, unstopped⟩ := Reclaimer.start_running started running
    exact ⟨by rw [Heap.reclaimer_modifyReclaimer, found]; rfl, unstopped⟩
  | close idle found' =>
    cases found.symm.trans found'
    exact ⟨by rw [Heap.shutdown, Heap.reclaimer_modifyReclaimer, found]; rfl, rfl⟩

theorem Move.busy (move : Move c false v e v') : v.stack ≠ [] := by
  rintro idle
  cases move with
  | count free | start free | close free =>
    cases idle
    exact absurd free (by simp [CanCall])
  | _ => cases idle

theorem Move.next (move : Move c outside v e v') : v'.heap.peers.next = v.heap.peers.next := by
  cases move with
  | unwind => exact Heap.next_unwind _ _ _
  | _ => rfl

theorem Move.marks (move : Move c outside v e v') :
    (∀ p, e.marks? = some p → v.heap.released? p = some false) ∧
    ∀ p, v'.heap.released? p = if e.marks? = some p then some true else v.heap.released? p := by
  cases move with
  | @mark h w rest p live =>
    refine ⟨fun i same => ?_, fun i => ?_⟩
    · cases same
      exact live
    · simp [Heap.released_mark live]
  | unwind => exact ⟨fun _ same => absurd same (by simp), Heap.released_unwind _ _ _⟩
  | _ => exact ⟨fun _ same => absurd same (by simp), fun _ => rfl⟩

theorem Move.passed {p : PeerId} (move : Move c outside v (.passed p) v') :
    v.heap.released? p = some true := by
  cases move with
  | pass gone => exact gone

theorem Move.returned {out : Bool} {closed : Option (List PeerId)}
    (move : Move c outside v (.returned out closed) v') :
    out = outside ∧ (outside = true → closed.isSome = true → v.worker = .gone) := by
  cases move with
  | leave joined => exact ⟨rfl, joined⟩

theorem Move.not_exited (move : Move c outside v .exited v') : False := by cases move

theorem Move.not_dequeued {p : PeerId} (move : Move c outside v (.dequeued p) v') : False := by
  cases move

theorem Move.refused {p : PeerId} {rest : List Activity} (move : Move c outside v e v')
    (top : v.stack = .handIn p .counted :: rest) (found : v.heap.reclaimer? c = some r)
    (stopped : r.shutDown = true) (idle : r.running = false) :
    e = .refused p ∧ v' = ⟨v.heap, v.worker, .handIn p .taken :: rest⟩ := by
  have direct := dispatch_stopped stopped idle p
  cases move with
  | count free | start free | close free =>
    cases top
    exact free.elim
  | queue found' dispatched | panic found' dispatched =>
    cases top
    cases found.symm.trans found'
    exact absurd (direct.symm.trans dispatched) (by simp)
  | refuse | lack =>
    cases top
    exact ⟨rfl, rfl⟩
  | mark | pass | unwind | leave => exact absurd top (by simp)
  | finish ran => cases ran <;> exact absurd top (by simp [Stage.last])

namespace Threads

variable {s s' : Threads}

theorem Step.reclaimer (step : Step c s e s') (found : s.heap.reclaimer? c = some r) :
    s'.heap.reclaimer? c = some (r.after e) ∧ r.Admits e := by
  cases step with
  | caller one move => exact move.reclaimer found
  | worker move => exact move.reclaimer found
  | dequeue alive waiting found' next =>
    cases found.symm.trans found'
    unfold Reclaimer.dequeue? at next
    split at next
    · exact absurd next (by simp)
    · rename_i queue
      cases next
      exact ⟨by simp [found, queue], by simp [Reclaimer.Admits, queue]⟩
  | exit alive waiting found' closed drained =>
    cases found.symm.trans found'
    exact ⟨found, closed, drained⟩
  | apart ran =>
    obtain ⟨_, rfl⟩ := Heap.release_ran ran
    exact ⟨(Heap.reclaimer_unwind _ _ _).trans found, trivial⟩
  | elsewhere other => exact ⟨other.reclaimer.trans found, trivial⟩

theorem Step.inHand (step : Step c s e s') :
    (e.leaves ++ s'.inHand).Perm (e.enters ++ s.inHand) := by
  rw [List.perm_iff_count]
  intro a
  cases step with
  | caller one move =>
    obtain ⟨rest, old, new⟩ := move.stack
    simp only at old
    simp only [Threads.inHand, one, old, new, List.count_append, List.flatten_append,
      List.flatten_cons]
    omega
  | worker move =>
    obtain ⟨rest, old, new⟩ := move.stack
    simp only at old
    simp only [Threads.inHand, old, new, List.count_append]
    omega
  | dequeue alive waiting =>
    simp only [Threads.inHand, waiting, Event.leaves, Event.enters, List.nil_append]
  | exit | apart | elsewhere => rfl

theorem Step.of_mem_inHand (step : Step c s e s') {a : Activity} (mem : a ∈ s'.inHand) :
    a ∈ e.enters ∨ a ∈ s.inHand :=
  List.mem_append.mp (step.inHand.mem_iff.mp (List.mem_append_right _ mem))

theorem Step.worker_eq (step : Step c s e s') : s'.worker = s.worker.after e := by
  cases step with
  | caller one move => exact move.worker
  | worker move => exact move.worker
  | dequeue alive => rfl
  | exit alive => rfl
  | apart | elsewhere => rfl

theorem Step.work (step : Step c s e s') : s'.work = s.work ∨
    (∃ p, e = .dequeued p ∧ s.worker = .alive ∧ s.work = []) ∨
    ∃ rest, s.work ≠ [] ∧ s.work = e.leaves ++ rest ∧ s'.work = e.enters ++ rest := by
  cases step with
  | caller | exit | apart | elsewhere => exact .inl rfl
  | worker move =>
    obtain ⟨rest, old, new⟩ := move.stack
    exact .inr (.inr ⟨rest, move.busy, old, new⟩)
  | dequeue alive waiting => exact .inr (.inl ⟨_, rfl, alive, waiting⟩)

theorem Step.next (step : Step c s e s') : s.heap.peers.next ≤ s'.heap.peers.next := by
  cases step with
  | caller one move => exact Nat.le_of_eq move.next.symm
  | worker move => exact Nat.le_of_eq move.next.symm
  | dequeue | exit => exact Nat.le_refl _
  | apart ran =>
    obtain ⟨_, rfl⟩ := Heap.release_ran ran
    exact Nat.le_of_eq (Heap.next_unwind (s.heap.mark _) _ _).symm
  | elsewhere other => exact other.next

/-- Whoever marks a peer finds it unmarked, and nobody takes the mark away. -/
theorem Step.marks (step : Step c s e s') :
    (∀ p, e.marks? = some p → s.heap.released? p = some false) ∧
    ∀ p released, s'.heap.released? p = some released →
      if e.marks? = some p then released = true else
        s.heap.released? p = some released ∨ (s.heap.peers.next ≤ p.index ∧ released = false) := by
  have kept : ∀ {h' : Heap}, (∀ p, h'.released? p =
      if e.marks? = some p then some true else s.heap.released? p) → ∀ p released,
      h'.released? p = some released → if e.marks? = some p then released = true else
        s.heap.released? p = some released ∨ (s.heap.peers.next ≤ p.index ∧ released = false) := by
    intro h' same p released now
    rw [same] at now
    split at now
    · rename_i marks
      rw [if_pos marks]
      exact (Option.some.inj now).symm
    · rename_i marks
      rw [if_neg marks]
      exact .inl now
  cases step with
  | caller one move => exact ⟨move.marks.1, kept move.marks.2⟩
  | worker move => exact ⟨move.marks.1, kept move.marks.2⟩
  | dequeue | exit => exact ⟨fun _ same => absurd same (by simp), kept (fun _ => rfl)⟩
  | apart ran =>
    obtain ⟨live, rfl⟩ := Heap.release_ran ran
    refine ⟨fun i same => ?_, kept (fun i => ?_)⟩
    · cases same
      exact live
    · simp [Heap.released_mark live]
  | elsewhere other =>
    exact ⟨fun _ same => absurd same (by simp), fun p released now => by
      simpa using other.peer p released now⟩

theorem Step.passed {p : PeerId} (step : Step c s (.passed p) s') :
    s.heap.released? p = some true := by
  cases step with
  | caller one move => exact move.passed
  | worker move => exact move.passed

theorem Step.dequeued {p : PeerId} (step : Step c s (.dequeued p) s') :
    s'.work = [.handIn p .taken] := by
  cases step with
  | caller one move => exact move.not_dequeued.elim
  | worker move => exact move.not_dequeued.elim
  | dequeue => rfl

theorem Step.exited (step : Step c s .exited s') : s.worker = .alive ∧ s.work = [] := by
  cases step with
  | caller one move => exact move.not_exited.elim
  | worker move => exact move.not_exited.elim
  | exit alive waiting => exact ⟨alive, waiting⟩

theorem Step.returned {ps : List PeerId} (step : Step c s (.returned true (some ps)) s') :
    s.worker = .gone := by
  cases step with
  | caller one move => exact move.returned.2 rfl rfl
  | worker move => exact absurd move.returned.1 (by simp)

end Threads
end Reclaimer
end VectorHeap
