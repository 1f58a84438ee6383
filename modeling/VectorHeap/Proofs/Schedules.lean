import VectorHeap.Proofs.Protocol
import VectorHeap.Proofs.Run

/-! What the program does is among what the threads at a reclaimer may do: handing in a peer and a
turn of the worker are steps of one thread with no other in between, and what users do besides
happens elsewhere. -/
namespace VectorHeap.Reclaimer

variable {c : ContextId} {outside : Bool} {r : Reclaimer}

namespace Threads

/-! ### What the program does at once
Each is a run of its steps with no other thread in between. -/

section Alone

variable {seat : View → Threads} {h : Heap} {w : WorkerState} {p : PeerId} {q : Peer}

def Seated (c : ContextId) (outside : Bool) (seat : View → Threads) : Prop :=
  ∀ v e v', Move c outside v e v' → Step c (seat v) e (seat v')

theorem seated_caller (c : ContextId) (work : List Activity) (before after : List (List Activity)) :
    Seated c true (fun v => ⟨v.heap, v.worker, work, before ++ v.stack :: after⟩) :=
  fun _ _ _ move => .caller rfl move

theorem seated_worker (c : ContextId) (callers : List (List Activity)) :
    Seated c false (fun v => ⟨v.heap, v.worker, v.stack, callers⟩) :=
  fun _ _ _ move => .worker move

theorem finishPeer_run (seated : Seated c outside seat) (hq : h.peers.find? p = some q)
    (w : WorkerState) (rest : List Activity) {s₀ : Threads} {es : List Event}
    (run : Run c s₀ es (seat ⟨h, w, .handIn p .taken :: rest⟩)) :
    ∃ es', Run c s₀ es' (seat ⟨h.finishPeer c p, w, rest⟩) := by
  unfold Heap.finishPeer
  cases live : q.released with
  | false =>
    rw [Heap.release_of_unreleased hq live]
    have marked := run.step (seated _ _ _ (.mark ((Heap.released_eq hq).trans (by rw [live]))))
    have unwound := marked.step (seated _ _ _ .unwind)
    exact ⟨_, unwound.step (seated _ _ _ (.finish true))⟩
  | true =>
    rw [Heap.release_of_released hq live]
    have passed := run.step (seated _ _ _ (.pass ((Heap.released_eq hq).trans (by rw [live]))))
    exact ⟨_, passed.step (seated _ _ _ (.finish false))⟩

theorem reclaim_run (seated : Seated c outside seat) (found : h.reclaimer? c = some r)
    (hq : h.peers.find? p = some q) {stack : List Activity} (idle : CanCall outside stack) :
    ∃ es w', Run c (seat ⟨h, w, stack⟩) es (seat ⟨h.reclaim c p, w', stack⟩) := by
  have counted := Run.start.step (seated _ _ _ (.count (w := w) idle (Heap.released_eq hq)))
  have found' : (h.modifyReclaimer c (·.count)).reclaimer? c = some r.count := by simp [found]
  have dispatch : ((h.modifyReclaimer c (·.count)).contexts.find? c).map
      (fun (ctx : Context) => ctx.reclaimer.dispatch? p) = some (r.count.dispatch? p) := by
    have mapped := congrArg (Option.map (·.dispatch? p)) found'
    rwa [Heap.reclaimer?, Option.map_map] at mapped
  unfold Heap.reclaim Heap.handIn
  dsimp only
  rw [dispatch]
  cases dispatched : r.count.dispatch? p with
  | error panic => exact ⟨_, _, counted.step (seated _ _ _ (.panic found' dispatched))⟩
  | ok taken =>
    cases taken with
    | some r' => exact ⟨_, _, counted.step (seated _ _ _ (.queue found' dispatched))⟩
    | none =>
      have refused := counted.step (seated _ _ _ (.refuse found' dispatched))
      obtain ⟨es, run⟩ := finishPeer_run seated (h := h.modifyReclaimer c (·.count)) hq w stack
        refused
      exact ⟨es, w, run⟩

theorem work_run {s : Threads} (alive : s.worker = .alive) (waiting : s.work = [])
    (found : s.heap.reclaimer? c = some r)
    (held : ∀ p ∈ r.queue, ∃ q, s.heap.peers.find? p = some q) :
    ∃ es, Run c s es { s with heap := s.heap.work c } := by
  have next : (s.heap.contexts.find? c).bind (fun ctx => ctx.reclaimer.dequeue?) = r.dequeue? := by
    obtain ⟨ctx, there, rfl⟩ := Option.map_eq_some_iff.mp found
    rw [there]
    rfl
  unfold Heap.work
  rw [next]
  cases taken : r.dequeue? with
  | none => exact ⟨[], .start⟩
  | some first =>
    obtain ⟨p, r'⟩ := first
    have mem : p ∈ r.queue := by
      unfold dequeue? at taken
      split at taken
      · exact absurd taken (by simp)
      · rename_i queue
        cases taken
        simp [queue]
    obtain ⟨q, hq⟩ := held p mem
    have dequeued := Run.start.step (.dequeue alive waiting found taken)
    obtain ⟨es, run⟩ := finishPeer_run (h := s.heap.modifyReclaimer c (fun _ => r'))
      (seated_worker c s.callers) hq s.worker [] dequeued
    refine ⟨es, ?_⟩
    rw [waiting]
    exact run

end Alone

end Threads

/-! ### What users do
No call changes a reclaimer or a mark, nor does the burial of what has no peer. -/

namespace Elsewhere

variable {h h' h'' : Heap}

theorem trans (E : Elsewhere c h h') (E' : Elsewhere c h' h'') : Elsewhere c h h'' where
  reclaimer := E'.reclaimer.trans E.reclaimer
  next := Nat.le_trans E.next E'.next
  peer p released now := by
    rcases E'.peer p released now with old | ⟨new, unreleased⟩
    · exact E.peer p released old
    · exact .inr ⟨Nat.le_trans E.next new, unreleased⟩

theorem of_peers (reclaimer : h'.reclaimer? c = h.reclaimer? c) (peers : h'.peers = h.peers) :
    Elsewhere c h h' where
  reclaimer := reclaimer
  next := Nat.le_of_eq (congrArg Store.next peers).symm
  peer p released now := by
    rw [Heap.released?, peers] at now
    exact .inl now

theorem refl (h : Heap) : Elsewhere c h h := .of_peers rfl rfl

theorem of_revises {v : Option VectorId} {p : Option PeerId} (R : h.Revises v p h') :
    Elsewhere c h h' where
  reclaimer := by
    have kept := congrArg (Option.map Accounts.reclaimer) (R.contexts c)
    rwa [Option.map_map, Option.map_map] at kept
  next := Nat.le_of_eq R.nexts.2.2.symm
  peer p released now := by
    have kept := congrArg (Option.map (fun fixed : Handle × Object × Bool => fixed.2.2)) (R.peers p)
    rw [Option.map_map, Option.map_map] at kept
    exact .inl (kept.symm.trans now)

theorem entered (h : Heap) (d : ContextId) (k : Handle) (o : Object) (site : String) :
    Elsewhere c h (h.entered d k o site) where
  reclaimer := Heap.reclaimer_modifyRegistry _ d _
  next := Nat.le_succ _
  peer p released now := by
    obtain ⟨q, hq, rfl⟩ := Option.map_eq_some_iff.mp now
    rcases Store.eq_or_find_of_find_add hq with ⟨rfl, rfl⟩ | old
    · exact .inr ⟨Nat.le_refl _, rfl⟩
    · exact .inl (Heap.released_eq old)

theorem of_growth (found : h.reclaimer? c = some r) (G : h.Growth h') : Elsewhere c h h' := by
  cases G with
  | context config =>
    obtain ⟨ctx, there, rfl⟩ := Option.map_eq_some_iff.mp found
    refine of_peers ?_ rfl
    rw [Heap.reclaimer?, Store.find_add_of_find _ there, found]
    rfl
  | buffer | vector | string => exact of_peers rfl rfl
  | naString d ctx s cell =>
    exact of_peers (h.contexts.map_find_modify d c _ (·.reclaimer) (fun _ _ => rfl)) rfl
  | peer d ctx o site =>
    refine (entered h d ctx.registry.nextHandle o site).trans (of_peers ?_ ?_)
    · cases o <;> exact Heap.reclaimer_modifyRegistry _ d _
    · cases o <;> rfl

theorem of_moves {T : VectorId → Prop} {B : BufferId → Prop} (found : h.reclaimer? c = some r)
    (M : h.Moves T B h') : Elsewhere c h h' := by
  induction M with
  | refl => exact refl h
  | tail first last ih =>
    refine ih.trans ?_
    cases last with
    | growth G => exact of_growth (ih.reclaimer.trans found) G
    | update v cell s touched U => exact of_revises U.revises
    | environs R => exact of_revises R
    | text s cell p there pointer R => exact of_revises R

theorem of_refusal {f : Fault} (R : h.Refusal f h') : Elsewhere c h h' := by
  induction R with
  | entered h d ctx o site => exact entered h d _ o site
  | discarded h h' cell rest ih =>
    exact (of_peers rfl rfl : Elsewhere c h (h.discarded cell)).trans ih

theorem of_rebinds (R : h.Rebinds h') : Elsewhere c h h' := by
  rw [R.rest]
  exact of_peers rfl rfl

/-- Whatever becomes of a call of a user, to the threads at a reclaimer it happens elsewhere. -/
theorem of_call (I : h.Intact) (found : h.reclaimer? c = some r) {call : Call}
    (ok : call.Admissible h) :
    Op.Outcome call.op h (fun _ h' => Elsewhere c h h') (fun _ h' => Elsewhere c h h') := by
  have advances : ∀ {T : VectorId → Prop} {B : BufferId → Prop} {h' : Heap}, h.Advances T B h' →
      Elsewhere c h h' := by
    rintro T B h' ⟨h₁, M, rfl | R⟩
    · exact of_moves found M
    · exact (of_moves found M).trans (of_rebinds R)
  refine Op.Outcome.mono (call.ends I ok) (fun _ _ A => advances A) ?_
  rintro f h' (⟨_, A⟩ | ⟨_, h₁, M, R⟩)
  · exact advances A
  · exact (of_moves found M).trans (of_refusal R)

theorem of_without {x : Ref} (other : x ≠ .context c) : Elsewhere c h (h.without x) := by
  cases x with
  | context d =>
    refine of_peers (congrArg (Option.map _) ?_) rfl
    exact (Store.find_erase _ d c).trans (if_neg (fun same => other (congrArg Ref.context same)))
  | peer i =>
    refine ⟨rfl, Nat.le_refl _, fun p released now => .inl ?_⟩
    obtain ⟨q, hq, rfl⟩ := Option.map_eq_some_iff.mp now
    exact Heap.released_eq (Store.find_of_find_erase hq).1
  | _ => exact of_peers rfl rfl

end Elsewhere
end VectorHeap.Reclaimer
