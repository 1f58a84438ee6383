import VectorHeap.Proofs.Heap.Addresses

/-! Clearings: what burials and workers take out of a heap. An object goes, a reclaimer takes note of
it, and peers are released. -/
namespace VectorHeap.Heap

variable {P : ContextId → PeerId → Prop} {h h' : Heap} {c : ContextId} {p : PeerId}

/-- One piece of clearing up. Peers that come into a queue or are released are among those given, and no
object has a peer that is released. -/
inductive Clearing (P : ContextId → PeerId → Prop) (h : Heap) : Heap → Prop
  | gone (r : Ref) (unheld : r ∉ h.refs) : Clearing P h (h.without r)
  | noted (c : ContextId) (f : Reclaimer → Reclaimer)
      (queue : ∀ ctx, h.contexts.find? c = some ctx → ∀ p ∈ (f ctx.reclaimer).queue,
        p ∈ ctx.reclaimer.queue ∨ P c p ∧ h.has (.peer p) = true) :
    Clearing P h (h.modifyReclaimer c f)
  | reported (panics : List Panic) : Clearing P h { h with panics }
  | released (c : ContextId) (p : PeerId) (q : Peer) (found : h.peers.find? p = some q)
      (live : q.released = false) (unpointed : ∀ o, h.peerOf? o ≠ some p) (given : P c p) :
    Clearing P h ((h.modifyRegistry c (fun r => (r.remove q.handle p).dropContents q.backing)).modifyPeer
      p Peer.emptied)

abbrev Cleared (P : ContextId → PeerId → Prop) : Heap → Heap → Prop :=
  Relation.ReflTransGen (Clearing P)

theorem Cleared.carry {K : Heap → Prop} (cleared : Cleared P h h') (start : K h)
    (step : ∀ {g g'}, Clearing P g g' → K g → K g') : K h' := by
  induction cleared with
  | refl => exact start
  | tail _ last ih => exact step last ih

/-! ### What is made of them -/

theorem Intact.unpointed (I : h.Intact) (ownerless : h.Ownerless p) (o : Object) :
    h.peerOf? o ≠ some p := by
  intro pointer
  obtain ⟨q, hq, rfl, _⟩ := I.peer_of_object pointer
  exact absurd ((alive_of_peerOf pointer).symm.trans (ownerless q hq)) (by decide)

theorem release_cleared (unpointed : ∀ o, h.peerOf? o ≠ some p) (given : P c p) :
    Cleared P h (h.release c p).1 := by
  cases found : h.peers.find? p with
  | none =>
    unfold release
    rw [found]
  | some q =>
    rw [release_eq found]
    cases live : q.released with
    | true => exact .refl
    | false => exact .single (.released c p q found live unpointed given)

theorem finishPeer_cleared (unpointed : ∀ o, h.peerOf? o ≠ some p) (given : P c p) :
    Cleared P h (h.finishPeer c p) :=
  (release_cleared unpointed given).tail (.noted c (·.finish (h.release c p).2) (fun _ _ _ => .inl))

theorem peerOf_modifyReclaimer (h : Heap) (c : ContextId) (f : Reclaimer → Reclaimer) (o : Object) :
    (h.modifyReclaimer c f).peerOf? o = h.peerOf? o := by
  cases o <;> rfl

theorem reclaim_cleared (there : h.has (.peer p) = true) (unpointed : ∀ o, h.peerOf? o ≠ some p)
    (given : P c p) : Cleared P h (h.reclaim c p) := by
  have counted : Cleared P h (h.modifyReclaimer c (·.count)) := .single (.noted c _ (fun _ _ _ => .inl))
  rcases reclaim_cases h c p with ⟨running, queued⟩ | direct | ⟨panic, refused⟩
  · rw [queued]
    refine counted.tail (.noted c _ (fun ctx _ i hi => ?_))
    rcases List.mem_append.mp hi with old | new
    · exact .inl old
    · cases List.mem_singleton.mp new
      exact .inr ⟨given, there⟩
  · rw [direct]
    refine counted.trans (finishPeer_cleared (fun o => ?_) given)
    rw [peerOf_modifyReclaimer]
    exact unpointed o
  · rw [refused]
    exact counted.tail (.reported _)

def HandedIn (h : Heap) (r : Ref) (c : ContextId) (p : PeerId) : Prop :=
  ∃ o, r = .ofObject o ∧ h.contextOf? o = some c ∧ h.peerOf? o = some p

theorem bury_cleared (I : h.Intact) {r : Ref} (unheld : r ∉ h.refs) :
    Cleared (h.HandedIn r) h (h.bury r) := by
  have gone : Cleared (h.HandedIn r) h (h.without r) := .single (.gone r unheld)
  rcases bury_cases I r with ⟨plain, _⟩ | ⟨o, c, p, rfl, own, _, pointer, handed⟩
  · rw [plain]
    exact gone
  · obtain ⟨q, hq, owner, _⟩ := I.peer_of_object pointer
    have there : (h.without (.ofObject o)).peers.find? p = some q := by cases o <;> exact hq
    have I' := (without_sheds I unheld).intact I
    have ownerless : (h.without (.ofObject o)).Ownerless p := by
      intro q' hq'
      cases there.symm.trans hq'
      rw [owner]
      cases o with
      | vector v => exact Store.contains_erase_self h.vectors v
      | string s => exact Store.contains_erase_self h.strings s
    rw [handed]
    exact gone.trans (reclaim_cleared (has_peer_iff.mpr ⟨q, there⟩) (I'.unpointed ownerless)
      ⟨o, rfl, own, pointer⟩)

def Waiting (h : Heap) (c : ContextId) (p : PeerId) : Prop :=
  ∃ ctx, h.contexts.find? c = some ctx ∧ p ∈ ctx.reclaimer.queue

theorem work_cleared (I : h.Intact) (c : ContextId) : Cleared h.Waiting h (h.work c) := by
  rcases work_cases h c with idle | ⟨ctx, p, rest, found, queue, run⟩
  · rw [idle]
  · have waiting : p ∈ ctx.reclaimer.queue := queue ▸ List.mem_cons_self
    have ownerless : h.Ownerless p := fun q hq => (I.contexts c ctx found).queued p q waiting hq
    rw [run]
    refine .trans (.single (.noted c _ (fun ctx' found' i hi => .inl ?_)))
      (finishPeer_cleared (fun o => ?_) ⟨ctx, found, waiting⟩)
    · cases found.symm.trans found'
      exact queue ▸ List.mem_cons_of_mem _ hi
    · rw [peerOf_modifyReclaimer]
      exact I.unpointed ownerless o

theorem shutdown_cleared (h : Heap) (c : ContextId) : Cleared P h (h.shutdown c) :=
  .single (.noted c _ (fun _ _ _ => .inl))

/-! ### What they keep -/

theorem Clearing.address (C : Clearing P h h') {x : Occupant} {a : Address}
    (there : h'.address? x = some a) : h.address? x = some a := by
  cases C with
  | gone r unheld =>
    obtain ⟨_, _, peers, contexts, _⟩ := find_without h r
    cases x with
    | block p =>
      obtain ⟨q, hq, at_⟩ := Option.bind_eq_some_iff.mp there
      exact Option.bind_eq_some_iff.mpr ⟨q, peers p q hq, at_⟩
    | sentinel c =>
      obtain ⟨ctx, found, made⟩ := Option.bind_eq_some_iff.mp there
      exact Option.bind_eq_some_iff.mpr ⟨ctx, contexts c ctx found, made⟩
    | buffer b => cases r <;> exact there
  | noted c f queue =>
    exact (address_modifyContext h c (fun ctx => { ctx with reclaimer := f ctx.reclaimer })
      (fun _ => rfl) x).symm.trans there
  | reported panics => exact there
  | released c p q found live unpointed given =>
    by_cases same : x = .block p
    · subst same
      rw [address?, modifyPeer, Store.find_modify_self, Option.bind_map] at there
      obtain ⟨_, _, none⟩ := Option.bind_eq_some_iff.mp there
      exact absurd none (by simp [Peer.emptied, Backing.owned?])
    · rw [address_modifyPeer_ne _ _ same, address_modifyRegistry] at there
      exact there

theorem Cleared.spaced (C : Cleared P h h') (A : h.Spaced) : h'.Spaced :=
  C.carry A (fun last A => A.stay (fun _ _ there => last.address there))

end VectorHeap.Heap
