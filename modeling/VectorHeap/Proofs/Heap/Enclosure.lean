import VectorHeap.Proofs.Heap.Region

/-! Releases and burials within a region. What a peer pins, where its entry is and who waits for it is all
of the region, so nothing is released outside of it. -/
namespace VectorHeap.Heap.Steady

variable {S : Region} {c : ContextId} {p : PeerId}

theorem modifyReclaimer (own : S.refs (.context c)) (k : Reclaimer → Reclaimer)
    (queue : ∀ r, ∀ p ∈ (k r).queue, p ∈ r.queue ∨ S.refs (.peer p)) :
    Steady S (·.modifyReclaimer c k) := by
  refine modifyContext own (fun ctx => { ctx with reclaimer := k ctx.reclaimer }) (fun ctx all => ?_)
  obtain ⟨naString, entries, old⟩ := Region.all_context_iff.mp all
  exact Region.all_context_iff.mpr
    ⟨naString, entries, fun p hp => (queue ctx.reclaimer p hp).elim (old p) id⟩

theorem noted (panic : Panic) : Steady S (fun h => { h with panics := h.panics ++ [panic] }) where
  matched _ _ M := ⟨M.contexts, M.vectors, M.strings, M.peers, M.frames, M.buffers⟩
  within _ _ := ⟨.refl _, .refl _, .refl _, .refl _, .refl _, .refl _⟩
  plain _ _ _ := rfl
  asked _ _ := rfl

theorem released (context : S.refs (.context c)) (own : S.refs (.peer p)) (q : Peer) :
    Steady S (fun h => (h.modifyRegistry c (fun r => (r.remove q.handle p).dropContents q.backing)).modifyPeer
      p Peer.emptied) := by
  refine .comp (modifyRegistry context _ (fun ctx all => ?_))
    (modifyPeer own Peer.emptied (fun q good => ⟨good.owner, nofun, nofun⟩))
  have removed : S.all { ctx with registry := ctx.registry.remove q.handle p }.refs :=
    Region.all_of_registry all (fun i p' entry => .inl (peer_remove entry))
  exact Region.all_dropContents removed q.backing

theorem release (context : S.refs (.context c)) (own : S.refs (.peer p)) :
    Steady S (fun h => (h.release c p).1) := by
  refine congr (read (Q := fun _ => True) (fun h => h.peers.find? p)
    (k := fun o h => o.elim h (fun q => if q.released then h else
      (h.modifyRegistry c (fun r => (r.remove q.handle p).dropContents q.backing)).modifyPeer p
        Peer.emptied)) (fun _ _ M => M.peers.find own) (fun _ _ => trivial) (fun o _ => ?_)) (fun h => ?_)
  · cases o with
    | none => exact stay
    | some q =>
      cases final : q.released with
      | true => simpa only [Option.elim_some, final, if_true] using stay
      | false =>
        simpa only [Option.elim_some, final, Bool.false_eq_true, if_false] using released context own q
  · cases found : h.peers.find? p with
    | none =>
      unfold Heap.release
      rw [found]
      rfl
    | some q =>
      rw [release_eq found]
      cases final : q.released <;> simp [final]

def runs (h : Heap) (p : PeerId) : Bool := (h.peers.find? p).any (fun q => !q.released)

theorem runs_matches {h g : Heap} (M : h.Matches S g) (own : S.refs (.peer p)) : runs g p = runs h p := by
  unfold runs
  rw [M.peers.find own]

theorem release_runs (h : Heap) (c : ContextId) (p : PeerId) : (h.release c p).2 = runs h p := by
  unfold runs
  cases found : h.peers.find? p with
  | none =>
    unfold Heap.release
    rw [found]
    rfl
  | some q =>
    rw [release_eq found]
    cases final : q.released <;> simp [final]

theorem finishPeer (context : S.refs (.context c)) (own : S.refs (.peer p)) :
    Steady S (·.finishPeer c p) := by
  refine congr (read (Q := fun _ => True) (fun h => runs h p)
    (k := fun ran h => (h.release c p).1.modifyReclaimer c (·.finish ran))
    (fun _ _ M => runs_matches M own) (fun _ _ => trivial) (fun ran _ => ?_)) (fun h => ?_)
  · exact (release context own).comp (l := fun h => h.modifyReclaimer c (·.finish ran))
      (modifyReclaimer context _ (fun _ _ => .inl))
  · rw [← release_runs h c p]
    rfl

theorem dispatched (context : S.refs (.context c)) (own : S.refs (.peer p)) :
    Steady S (fun h => match (h.contexts.find? c).map (fun (ctx : Context) => ctx.reclaimer.dispatch? p) with
      | some (.ok (some r)) => h.modifyReclaimer c (fun _ => r)
      | some (.error panic) => { h with panics := h.panics ++ [panic] }
      | _ => h.finishPeer c p) := by
  refine read (Q := fun o => ∀ r, o = some (.ok (some r)) → ∀ i ∈ r.queue, S.refs (.peer i))
    (fun h => (h.contexts.find? c).map (fun (ctx : Context) => ctx.reclaimer.dispatch? p))
    (k := fun (o : Option (Except Panic (Option Reclaimer))) h => match o with
      | some (.ok (some r)) => h.modifyReclaimer c (fun _ => r)
      | some (.error panic) => { h with panics := h.panics ++ [panic] }
      | _ => h.finishPeer c p)
    (fun _ _ M => by rw [M.contexts.find context]) (fun h M r dispatched i hi => ?_) (fun o waiting => ?_)
  · obtain ⟨ctx, found, queued⟩ := Option.map_eq_some_iff.mp dispatched
    have queue := (Region.all_context_iff.mp (M.contexts.closed c ctx context found)).2.2
    rcases dispatch_cases ctx.reclaimer p with ⟨panic, refused⟩ | direct | ⟨running, entered⟩
    · rw [refused] at queued
      cases queued
    · rw [direct] at queued
      cases queued
    · rw [entered] at queued
      cases queued
      rcases List.mem_append.mp hi with old | new
      · exact queue i old
      · exact List.mem_singleton.mp new ▸ own
  · match o with
    | some (.ok (some r)) =>
      exact modifyReclaimer context (fun _ => r) (fun _ i hi => .inr (waiting r rfl i hi))
    | some (.error panic) => exact noted panic
    | some (.ok none) => exact finishPeer context own
    | none => exact finishPeer context own

theorem reclaim (context : S.refs (.context c)) (own : S.refs (.peer p)) :
    Steady S (·.reclaim c p) := by
  refine congr ((modifyReclaimer context (·.count) (fun _ _ => .inl)).comp (dispatched context own))
    (fun h => ?_)
  unfold Heap.reclaim Heap.handIn
  dsimp only
  generalize Option.map _ _ = answer
  rcases answer with _ | panic | _ | r <;> rfl

theorem work (context : S.refs (.context c)) : Steady S (·.work c) := by
  refine congr (read (Q := fun o => ∀ t, o = some t → S.refs (.peer t.1) ∧ ∀ i ∈ t.2.queue, S.refs (.peer i))
    (fun h => (h.contexts.find? c).bind (fun ctx => ctx.reclaimer.dequeue?))
    (k := fun o h => o.elim h (fun t => (h.modifyReclaimer c (fun _ => t.2)).finishPeer c t.1))
    (fun _ _ M => by rw [M.contexts.find context]) (fun h M t taken => ?_) (fun o waiting => ?_))
    (fun h => ?_)
  · obtain ⟨ctx, found, next⟩ := Option.bind_eq_some_iff.mp taken
    have queue := (Region.all_context_iff.mp (M.contexts.closed c ctx context found)).2.2
    unfold Reclaimer.dequeue? at next
    split at next
    · cases next
    · rename_i p rest waiting
      cases next
      rw [waiting] at queue
      exact List.forall_mem_cons.mp queue
  · cases o with
    | none => exact stay
    | some t =>
      obtain ⟨first, rest⟩ := waiting t rfl
      exact (modifyReclaimer context (fun _ => t.2) (fun _ i hi => .inr (rest i hi))).comp
        (l := fun h => h.finishPeer c t.1) (finishPeer context first)
  · unfold Heap.work
    cases (h.contexts.find? c).bind (fun ctx => ctx.reclaimer.dequeue?) <;> rfl

theorem shutdown (context : S.refs (.context c)) : Steady S (·.shutdown c) :=
  modifyReclaimer context (·.stop) (fun _ _ => .inl)

/-! ### Burials -/

variable {h g : Heap} {r : Ref}

theorem legacy_matches (M : h.Matches S g) (own : S.refs r) : g.legacy? r = h.legacy? r := by
  cases r with
  | vector v => rw [legacy?, legacy?, M.vectors.find own]
  | string s =>
    rw [legacy?, legacy?, M.strings.find own]
    cases found : h.strings.find? s with
    | none => rfl
    | some cell =>
      have there : g.contexts.contains cell.context = h.contexts.contains cell.context :=
        M.has (r := .context cell.context) (M.strings.closed s cell own found).1
      cases hp : cell.peer <;> simp [hp, there, Option.filter]
  | _ => rfl

theorem legacy_enclosed (M : h.Matches S g) (own : S.refs r) (left : h.legacy? r = some (c, p)) :
    S.refs (.context c) ∧ S.refs (.peer p) := by
  cases r with
  | vector v =>
    obtain ⟨cell, found, pointer⟩ := Option.bind_eq_some_iff.mp left
    obtain ⟨p, hp, same⟩ := Option.map_eq_some_iff.mp pointer
    cases same
    obtain ⟨context, peer, _⟩ := Region.all_vector_iff.mp (M.vectors.closed v cell own found)
    exact ⟨context, peer p hp⟩
  | string s =>
    obtain ⟨cell, found, pointer⟩ := Option.bind_eq_some_iff.mp (Option.filter_eq_some_iff.mp left).1
    obtain ⟨p, hp, same⟩ := Option.map_eq_some_iff.mp pointer
    cases same
    obtain ⟨context, all⟩ := M.strings.closed s cell own found
    exact ⟨context, Region.all_string_iff.mp all p hp⟩
  | _ => cases left

theorem bury (own : S.refs r) : Steady S (·.bury r) := by
  refine congr (read (Q := fun o => ∀ t, o = some t → S.refs (.context t.1) ∧ S.refs (.peer t.2))
    (·.legacy? r) (k := fun o h => o.elim (h.without r) (fun t => (h.without r).reclaim t.1 t.2))
    (fun _ _ M => legacy_matches M own) (fun _ M _ left => legacy_enclosed M own left)
    (fun o handed => ?_)) (fun h => ?_)
  · cases o with
    | none => exact without own
    | some t =>
      obtain ⟨context, peer⟩ := handed t rfl
      exact (without own).comp (l := fun h => h.reclaim t.1 t.2) (reclaim context peer)
  · unfold Heap.bury
    cases h.legacy? r <;> rfl

end VectorHeap.Heap.Steady
