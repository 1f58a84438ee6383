import VectorHeap.Proofs.Heap.Tables

/-! Releases beside the calls.
Workers and whoever releases a peer by hand do so in steps of their own, and calls, burials and other
releases come between them. The block of a peer is free before it is off the index of addresses, and
its entry is gone before its site is: whatever takes up the address or the handle in between loses its
own place in the table when the release goes on. -/
namespace VectorHeap

/-- A call was answered, or it stopped, but not since the context registered a handle twice. -/
def Call.Ran (call : Call) (c : ContextId) (h h' : Heap) : Prop :=
  call.op h = .ok () h' ∨ ∃ f, call.op h = .error f h' ∧ Heap.DistinctIn c h' f

namespace Overlap

inductive Stage
  | left
  | taken
  | marked
  /-- Its entry is gone, but not its site. -/
  | delisted (k : Handle)
  | struck
  /-- The block is free, but on the index. -/
  | freed (b : Backing)
  /-- Off the index, but counted. -/
  | unindexed (b : Backing)
  | noted
  | ended (ran : Bool)
deriving DecidableEq

/-- The peer is marked, but its block is not free yet. -/
def Stage.holds : Stage → Bool
  | .marked | .delisted _ | .struck => true
  | _ => false

/-- What a thread is at with a context and a peer. A reclaimer counts as finished what was counted
when it was handed in. -/
structure Release where
  context : ContextId
  peer : PeerId
  counted : Bool
  stage : Stage
deriving DecidableEq

namespace Release

variable {h : Heap} {c : ContextId} {p : PeerId}

def refs (r : Release) : List Ref :=
  .peer r.peer :: if r.stage = .left then [.context r.context] else []

def advance (h : Heap) (r : Release) : Heap × Option Release :=
  match h.peers.find? r.peer with
  | none => (h, none)
  | some q =>
    match r.stage with
    | .left =>
      let (h, back) := h.handIn r.context r.peer
      (h, if back then some { r with counted := true, stage := .taken } else none)
    | .taken =>
      if q.released then (h, some { r with stage := .ended false })
      else (h.mark r.peer, some { r with stage := .marked })
    | .marked =>
      if (h.contexts.find? r.context).bind (·.registry.peer? q.handle) = some r.peer then
        (h.modifyRegistry r.context (·.delist q.handle), some { r with stage := .delisted q.handle })
      else (h, some { r with stage := .struck })
    | .delisted k => (h.modifyRegistry r.context (·.forgetSite k), some { r with stage := .struck })
    | .struck => (h.free r.peer, some { r with stage := .freed q.backing })
    | .freed b => (h.modifyRegistry r.context (·.unindex b), some { r with stage := .unindexed b })
    | .unindexed b => (h.modifyRegistry r.context (·.noteFreed b), some { r with stage := .noted })
    | .noted => (h.unpin r.peer, some { r with stage := .ended true })
    | .ended ran => (if r.counted then h.modifyReclaimer r.context (·.finish ran) else h, none)

def steps : Nat → Heap × Option Release → Heap × Option Release
  | n + 1, (h, some r) => steps n (r.advance h)
  | _, s => s

theorem steps_done (n : Nat) (h : Heap) : steps n (h, none) = (h, none) := by cases n <;> rfl

/-! ### What the steps come to -/

theorem struck_eq (h : Heap) (c : ContextId) (p : PeerId) (k : Handle) :
    h.modifyRegistry c (·.remove k p) =
      if (h.contexts.find? c).bind (·.registry.peer? k) = some p then
        (h.modifyRegistry c (·.delist k)).modifyRegistry c (·.forgetSite k)
      else h := by
  have removed : ∀ ctx, h.contexts.find? c = some ctx → ctx.registry.remove k p =
      if (h.contexts.find? c).bind (·.registry.peer? k) = some p then
        (ctx.registry.delist k).forgetSite k else ctx.registry := by
    intro ctx found
    rw [found]
    rfl
  split
  · rename_i entry
    simp only [Heap.modifyRegistry, Heap.modifyContext, Store.modify_modify]
    refine congrArg (fun contexts => { h with contexts }) (Store.modify_congr _ c (fun ctx found => ?_))
    rw [removed ctx found, if_pos entry]
  · rename_i other
    refine congrArg (fun contexts => { h with contexts }) (Store.modify_same _ c (fun ctx found => ?_))
    exact congrArg (fun registry => { ctx with registry }) ((removed ctx found).trans (if_neg other))

theorem steps_struck {q : Peer} (hq : h.peers.find? p = some q) (counted : Bool) (n : Nat) :
    let emptied := ((((h.free p).modifyRegistry c (·.unindex q.backing)).modifyRegistry c
      (·.noteFreed q.backing)).unpin p)
    steps (n + 5) (h, some ⟨c, p, counted, .struck⟩) =
      (if counted then emptied.modifyReclaimer c (·.finish true) else emptied, none) := by
  have there : (h.free p).peers.find? p = some { q with backing := .unallocated } :=
    (h.peers.find_modify_self p _).trans (congrArg (Option.map _) hq)
  have unpinned : ((((h.free p).modifyRegistry c (·.unindex q.backing)).modifyRegistry c
      (·.noteFreed q.backing)).unpin p).peers.find? p =
        some { q with backing := .unallocated, pins := [] } :=
    (Store.find_modify_self _ p _).trans (congrArg (Option.map _) there)
  have peers : ∀ (g : Heap) (f : Registry → Registry), (g.modifyRegistry c f).peers = g.peers :=
    fun _ _ => rfl
  simp only [steps, advance, hq, there, unpinned, peers, steps_done]

/-- The steps of a release that nothing comes between are the release. -/
theorem steps_taken {q : Peer} (hq : h.peers.find? p = some q) (counted : Bool) :
    steps 8 (h, some ⟨c, p, counted, .taken⟩) =
      (if counted then h.finishPeer c p else (h.release c p).1, none) := by
  cases released : q.released with
  | true =>
    have same : h.release c p = (h, false) := by
      rw [Heap.release, hq]
      exact if_pos released
    simp only [steps, advance, hq, released, if_true, Heap.finishPeer, same]
  | false =>
    have marked := Heap.find_mark hq
    have ran : h.release c p = ((h.mark p).unwind c p, true) := by
      rw [Heap.release, hq]
      exact if_neg (by simp [released])
    have unwound : (h.mark p).unwind c p =
        (((((h.mark p).modifyRegistry c (·.remove q.handle p)).free p).modifyRegistry c
          (·.unindex q.backing)).modifyRegistry c (·.noteFreed q.backing)).unpin p := by
      rw [Heap.unwind, marked]
    have first : steps 8 (h, some ⟨c, p, counted, .taken⟩) =
        steps 7 (h.mark p, some ⟨c, p, counted, .marked⟩) := by
      simp only [steps, advance, hq, released, Bool.false_eq_true, if_false]
    rw [first, Heap.finishPeer, ran, unwound, struck_eq]
    have next : steps 7 (h.mark p, some ⟨c, p, counted, .marked⟩) =
        steps 6 ((⟨c, p, counted, .marked⟩ : Release).advance (h.mark p)) := rfl
    rw [next, advance, marked]
    dsimp only
    split
    · have there : ((h.mark p).modifyRegistry c (·.delist q.handle)).peers.find? p = _ := marked
      rw [steps, advance, there]
      exact steps_struck (h := ((h.mark p).modifyRegistry c _).modifyRegistry c _) marked counted 0
    · exact steps_struck marked counted 1

theorem steps_left {q : Peer} (hq : h.peers.find? p = some q) (counted : Bool) :
    steps 9 (h, some ⟨c, p, counted, .left⟩) = (h.reclaim c p, none) := by
  have next : steps 9 (h, some ⟨c, p, counted, .left⟩) =
      steps 8 ((⟨c, p, counted, .left⟩ : Release).advance h) := rfl
  rw [next, advance, hq, Heap.reclaim]
  rcases Heap.handIn_cases h c p with ⟨running, queued⟩ | back | ⟨panic, stuck⟩
  · rw [queued]
    rfl
  · rw [back]
    exact steps_taken (h := h.modifyReclaimer c (·.count)) hq true
  · rw [stuck]
    rfl

/-! ### What is unsettled meanwhile -/

/-- The index may be wrong about the block of a peer that is marked, and about what was freed. -/
def Blurs (h : Heap) (r : Release) (a : Address) : Prop :=
  r.stage.holds = true ∧ h.address? (.block r.peer) = some a ∨
    ∃ b, r.stage = .freed b ∧ b.owned?.map Prod.fst = some a

/-- A peer that the context lists lies where a block was freed that is on the index still, or has a
handle whose old site is. -/
def overtaken (h : Heap) (r : Release) : Bool :=
  match h.contexts.find? r.context, r.stage with
  | some ctx, .freed b => ctx.registry.peers.values.any (fun p =>
      b.owned?.isSome && h.address? (.block p) = b.owned?.map Prod.fst)
  | some ctx, .delisted k => (ctx.registry.peer? k).isSome
  | _, _ => false

end Release

/-! ### Scenes -/

structure Scene where
  heap : Heap
  underWay : List Release := []

namespace Scene

/-- What the debugging tables of a context need not be right about. -/
def gaps (s : Scene) (c : ContextId) : Gaps where
  address a := ∃ r ∈ s.underWay, r.context = c ∧ r.Blurs s.heap a
  handle k := ∃ r ∈ s.underWay, r.context = c ∧ r.stage = .delisted k

def Overtaken (s : Scene) (c : ContextId) : Prop :=
  ∃ r ∈ s.underWay, r.context = c ∧ r.overtaken s.heap = true

instance (s : Scene) (c : ContextId) : Decidable (s.Overtaken c) :=
  inferInstanceAs (Decidable (∃ r ∈ s.underWay, r.context = c ∧ r.overtaken s.heap = true))

/-- Calls come one after the other. A worker takes a peer off its queue, an object that dies leaves its
peer to be handed in, and anybody may hand in or release a peer whose owner is dead, but with other
contexts only what this one does not list. -/
inductive Step (c : ContextId) : Scene → Scene → Prop
  | call {h h' : Heap} {rs : List Release} (call : Call) (ok : call.Admissible h)
      (ran : call.Ran c h h') : Step c ⟨h, rs⟩ ⟨h', rs⟩
  | bury {h : Heap} {rs : List Release} (roots : List Ref) (r : Ref)
      (dead : r ∈ h.dead (roots ++ rs.flatMap Release.refs)) :
    Step c ⟨h, rs⟩
      ⟨h.without r, (h.legacy? r).toList.map (fun (d, p) => ⟨d, p, false, .left⟩) ++ rs⟩
  | shutdown {h : Heap} {rs : List Release} (d : ContextId) : Step c ⟨h, rs⟩ ⟨h.shutdown d, rs⟩
  | dequeue {h : Heap} {rs : List Release} {d : ContextId} {p : PeerId} {ctx : Context} {r : Reclaimer}
      (found : h.contexts.find? d = some ctx) (next : ctx.reclaimer.dequeue? = some (p, r)) :
    Step c ⟨h, rs⟩ ⟨h.modifyReclaimer d (fun _ => r), ⟨d, p, true, .taken⟩ :: rs⟩
  | byHand {h : Heap} {rs : List Release} (d : ContextId) (p : PeerId) (stage : Stage)
      (first : stage = .left ∨ stage = .taken) (there : h.has (.peer p) = true)
      (ownerless : h.Ownerless p) (own : d = c ∨ ¬ h.ListsIn c p) :
    Step c ⟨h, rs⟩ ⟨h, ⟨d, p, false, stage⟩ :: rs⟩
  | move {h : Heap} {before after : List Release} {r : Release} :
    Step c ⟨h, before ++ r :: after⟩ ⟨(r.advance h).1, before ++ (r.advance h).2.toList ++ after⟩

/-- Steps from a heap on in which no release is overtaken, with the heaps that they went through, the
last one first. -/
inductive Run (c : ContextId) (h₀ : Heap) : List Heap → Scene → Prop
  | start : Run c h₀ [] ⟨h₀, []⟩
  | step {past : List Heap} {s s' : Scene} (run : Run c h₀ past s) (last : Step c s s')
      (clear : ¬ s'.Overtaken c) : Run c h₀ (s.heap :: past) s'

/-! ### Runs that are computed -/

/-- What may happen next. Of the releases under way the one that came last goes on. -/
inductive Act
  | call (call : Call)
  | bury (roots : List Ref) (r : Ref)
  | dequeue (d : ContextId)
  | advance

def act (s : Scene) : Act → Scene
  | .call call =>
    match call.op s.heap with
    | .ok _ h | .error _ h => { s with heap := h }
  | .bury _ r =>
    ⟨s.heap.without r, (s.heap.legacy? r).toList.map (fun (d, p) => ⟨d, p, false, .left⟩) ++ s.underWay⟩
  | .dequeue d =>
    match (s.heap.contexts.find? d).bind (·.reclaimer.dequeue?) with
    | some (p, r) => ⟨s.heap.modifyReclaimer d (fun _ => r), ⟨d, p, true, .taken⟩ :: s.underWay⟩
    | none => s
  | .advance =>
    match s.underWay with
    | r :: rs => ⟨(r.advance s.heap).1, (r.advance s.heap).2.toList ++ rs⟩
    | [] => s

/-- A call is answered that adopts nothing, something dead is buried, or something is to be done. -/
def can (s : Scene) : Act → Bool
  | .call call =>
    call.refs.all s.heap.has && (match call with | .adopt .. => false | _ => true) &&
      match call.op s.heap with
      | .ok _ _ => true
      | .error _ _ => false
  | .bury roots r => (s.heap.dead (roots ++ s.underWay.flatMap Release.refs)).contains r
  | .dequeue d => ((s.heap.contexts.find? d).bind (·.reclaimer.dequeue?)).isSome
  | .advance => !s.underWay.isEmpty

def plays : List Act → Scene → Bool
  | [], _ => true
  | a :: rest, s => s.can a && plays rest (s.act a)

/-- The acts can be played, and no release is overtaken on the way. -/
def clears (c : ContextId) : List Act → Scene → Bool
  | [], _ => true
  | a :: rest, s => s.can a && !decide ((s.act a).Overtaken c) && clears c rest (s.act a)

variable {c : ContextId} {h₀ : Heap} {past : List Heap}

theorem step_act {s : Scene} {a : Act} (can : s.can a = true) : Step c s (s.act a) := by
  obtain ⟨h, rs⟩ := s
  cases a with
  | call call =>
    simp only [Scene.can, Bool.and_eq_true] at can
    obtain ⟨⟨alive, tame⟩, answered⟩ := can
    split at answered
    · rename_i h' run
      have after : act ⟨h, rs⟩ (.call call) = ⟨h', rs⟩ := by simp only [act, run]
      rw [after]
      refine .call call ⟨fun r mem => List.all_eq_true.mp alive r mem, ?_⟩ (.inl run)
      rintro d type b length rfl
      cases tame
    · cases answered
  | bury roots r => exact .bury roots r (by simpa [Scene.can] using can)
  | dequeue d =>
    obtain ⟨⟨p, r⟩, next⟩ := Option.isSome_iff_exists.mp can
    obtain ⟨ctx, found, taken⟩ := Option.bind_eq_some_iff.mp next
    rw [act, next]
    exact .dequeue found taken
  | advance =>
    cases rs with
    | nil => cases can
    | cons r rs =>
      have last : Step c ⟨h, [] ++ r :: rs⟩
        ⟨(r.advance h).1, [] ++ (r.advance h).2.toList ++ rs⟩ := .move
      exact last

theorem steps_of_plays : ∀ (as : List Act) (s : Scene), plays as s = true →
    Relation.ReflTransGen (Step c) s (as.foldl act s)
  | [], _, _ => .refl
  | _ :: rest, s, fine => by
    obtain ⟨can, fine⟩ := Bool.and_eq_true_iff.mp fine
    exact .head (step_act can) (steps_of_plays rest _ fine)

theorem Run.of_clears : ∀ (as : List Act) {s : Scene} {past : List Heap}, Run c h₀ past s →
    clears c as s = true → ∃ past, Run c h₀ past (as.foldl act s)
  | [], _, past, run, _ => ⟨past, run⟩
  | _ :: rest, _, _, run, fine => by
    obtain ⟨here, fine⟩ := Bool.and_eq_true_iff.mp fine
    obtain ⟨can, clear⟩ := Bool.and_eq_true_iff.mp here
    exact Run.of_clears rest (run.step (step_act can) (by simpa using clear)) fine

end Scene
end Overlap
end VectorHeap
