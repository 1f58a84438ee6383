import VectorHeap.Proofs.Heap.Burial

/-! Collecting and settling. Collecting buries what is dead, one object after the other, and leaves
nothing dead; settling also leaves nothing queued. What burials and turns of workers keep, both keep. -/
namespace VectorHeap

/-! ### Identities of a store -/

namespace Store

variable {k : Kind} {α : Type} {s : Store k α} {i : Id k} {a : α}

theorem ids_modify (s : Store k α) (i : Id k) (f : α → α) : (s.modify i f).ids = s.ids :=
  Assoc.keys_modify s.table.entries i f

theorem nodup_ids (s : Store k α) : s.ids.Nodup := s.table.nodup

theorem length_ids_erase (found : s.find? i = some a) : (s.erase i).ids.length + 1 = s.ids.length := by
  have perm := (Assoc.perm_erase s.table.entries i a found).length_eq
  simp only [ids, Table.keys, List.length_map]
  exact perm.symm

theorem contains_of_ids {t : Store k α} (same : t.ids = s.ids) (i : Id k) :
    t.contains i = s.contains i := by
  rw [Bool.eq_iff_iff, contains_iff, contains_iff, ← mem_ids_iff, ← mem_ids_iff, same]

end Store

namespace Heap

variable {h h' h'' : Heap} {c : ContextId} {p : PeerId} {r r' : Ref} {roots : List Ref}

/-! ### Handing in -/

/-- A peer is handed in or released: all objects stay, and no other references come up. -/
structure HandsIn (p : PeerId) (h h' : Heap) : Prop where
  contexts : h'.contexts.ids = h.contexts.ids
  vectors : h'.vectors = h.vectors
  strings : h'.strings = h.strings
  frames : h'.frames = h.frames
  peers : h'.peers.ids = h.peers.ids
  refs : ∀ r ∈ h'.refs, r ∈ h.refs ∨ r = .peer p

namespace HandsIn

theorem refl (p : PeerId) (h : Heap) : HandsIn p h h := ⟨rfl, rfl, rfl, rfl, rfl, fun _ => .inl⟩

theorem trans (H : HandsIn p h h') (H' : HandsIn p h' h'') : HandsIn p h h'' where
  contexts := H'.contexts.trans H.contexts
  vectors := H'.vectors.trans H.vectors
  strings := H'.strings.trans H.strings
  frames := H'.frames.trans H.frames
  peers := H'.peers.trans H.peers
  refs r held := (H'.refs r held).elim (H.refs r) .inr

theorem modifyContext (h : Heap) (c : ContextId) (f : Context → Context)
    (kept : ∀ ctx, h.contexts.find? c = some ctx → ∀ r ∈ (f ctx).refs, r ∈ ctx.refs ∨ r = .peer p) :
    HandsIn p h (h.modifyContext c f) where
  contexts := Store.ids_modify ..
  vectors := rfl
  strings := rfl
  frames := rfl
  peers := rfl
  refs r held := by
    rcases mem_refs_iff.mp held with held | held | held | ⟨d, ctx', found, hr⟩ | held
    · exact .inl (mem_refs_iff.mpr (.inl held))
    · exact .inl (mem_refs_iff.mpr (.inr (.inl held)))
    · exact .inl (mem_refs_iff.mpr (.inr (.inr (.inl held))))
    · have old : ∀ ctx, h.contexts.find? d = some ctx → r ∈ ctx.refs → r ∈ h.refs := fun ctx there hr =>
        mem_refs_iff.mpr (.inr (.inr (.inr (.inl ⟨d, ctx, there, hr⟩))))
      by_cases same : c = d
      · subst same
        rw [Heap.modifyContext, Store.find_modify_self] at found
        obtain ⟨ctx, there, rfl⟩ := Option.map_eq_some_iff.mp found
        exact (kept ctx there r hr).imp (old ctx there) id
      · exact .inl (old ctx' ((h.contexts.find_modify_ne f same).symm.trans found) hr)
    · exact .inl (mem_refs_iff.mpr (.inr (.inr (.inr (.inr held)))))

theorem emptied (h : Heap) (i : PeerId) : HandsIn p h (h.modifyPeer i Peer.emptied) where
  contexts := rfl
  vectors := rfl
  strings := rfl
  frames := rfl
  peers := Store.ids_modify ..
  refs r held := by
    refine .inl (mem_refs_iff.mpr ?_)
    rcases mem_refs_iff.mp held with held | held | ⟨j, q', found, hr⟩ | held
    · exact .inl held
    · exact .inr (.inl held)
    · by_cases same : i = j
      · subst same
        rw [modifyPeer, Store.find_modify_self] at found
        obtain ⟨q, _, rfl⟩ := Option.map_eq_some_iff.mp found
        exact absurd hr (by simp [Peer.refs, Peer.emptied])
      · exact .inr (.inr (.inl ⟨j, q', (h.peers.find_modify_ne _ same).symm.trans found, hr⟩))
    · exact .inr (.inr (.inr held))

theorem modifyReclaimer (h : Heap) (c : ContextId) (f : Reclaimer → Reclaimer)
    (queue : ∀ ctx, h.contexts.find? c = some ctx → ∀ i ∈ (f ctx.reclaimer).queue,
      i ∈ ctx.reclaimer.queue ∨ i = p) : HandsIn p h (h.modifyReclaimer c f) := by
  refine modifyContext h c _ (fun ctx found r hr => ?_)
  rcases mem_context_refs.mp hr with na | entry | ⟨i, hi, rfl⟩
  · exact .inl (mem_context_refs.mpr (.inl na))
  · exact .inl (mem_context_refs.mpr (.inr (.inl entry)))
  · rcases queue ctx found i hi with old | rfl
    · exact .inl (mem_context_refs.mpr (.inr (.inr ⟨i, old, rfl⟩)))
    · exact .inr rfl

theorem finishPeer (h : Heap) (c : ContextId) (i : PeerId) : HandsIn p h (h.finishPeer c i) := by
  have released : HandsIn p h (h.release c i).1 := by
    cases found : h.peers.find? i with
    | none =>
      unfold release
      rw [found]
      exact .refl p h
    | some q =>
      rw [release_eq found]
      split
      · exact .refl p h
      · refine (modifyContext h c _ (fun ctx _ r hr => .inl ?_)).trans (.emptied _ i)
        rcases mem_context_refs.mp hr with na | ⟨k, j, entry, rfl⟩ | queued
        · exact mem_context_refs.mpr (.inl na)
        · refine mem_context_refs.mpr (.inr (.inl ⟨k, j, peer_remove (k := q.handle) (p := i) ?_, rfl⟩))
          exact (congrArg (·.find? k) (accounts_dropContents _ q.backing).1).symm.trans entry
        · exact mem_context_refs.mpr (.inr (.inr queued))
  exact released.trans (.modifyReclaimer _ c (·.finish (h.release c i).2) (fun _ _ _ => .inl))

theorem reclaim (h : Heap) (c : ContextId) (p : PeerId) : HandsIn p h (h.reclaim c p) := by
  have counted : HandsIn p h (h.modifyReclaimer c (·.count)) := .modifyReclaimer h c _ (fun _ _ _ => .inl)
  rcases reclaim_cases h c p with ⟨running, queued⟩ | direct | ⟨panic, refused⟩
  · rw [queued]
    refine counted.trans (.modifyReclaimer _ c _ (fun ctx _ i hi => ?_))
    exact (List.mem_append.mp hi).imp id List.mem_singleton.mp
  · rw [direct]
    exact counted.trans (.finishPeer _ c p)
  · rw [refused]
    exact ⟨counted.contexts, rfl, rfl, rfl, rfl, counted.refs⟩

theorem has (H : HandsIn p h h') (r : Ref) : h'.has r = h.has r := by
  cases r with
  | context c => exact Store.contains_of_ids H.contexts c
  | vector v => exact congrArg (·.contains v) H.vectors
  | string s => exact congrArg (·.contains s) H.strings
  | frame f => exact congrArg (·.contains f) H.frames
  | peer i => exact Store.contains_of_ids H.peers i

theorem population (H : HandsIn p h h') : h'.population = h.population := by
  rw [Heap.population, Heap.population, H.contexts, H.vectors, H.strings, H.frames, H.peers]

end HandsIn

theorem work_handsIn (h : Heap) (c : ContextId) : ∃ p, HandsIn p h (h.work c) := by
  rcases work_cases h c with idle | ⟨ctx, p, rest, found, queue, run⟩
  · exact ⟨⟨0⟩, idle.symm ▸ .refl _ h⟩
  · refine ⟨p, run ▸ (HandsIn.modifyReclaimer h c _ (fun ctx' found' i hi => .inl ?_)).trans
      (.finishPeer _ c p)⟩
    cases found.symm.trans found'
    exact queue ▸ List.mem_cons_of_mem _ hi

/-! ### Burials -/

theorem population_without (there : h.has r = true) : (h.without r).population + 1 = h.population := by
  cases r with
  | context c =>
    obtain ⟨_, found⟩ := has_context_iff.mp there
    have gone := Store.length_ids_erase found
    simp only [population, without]
    omega
  | vector v =>
    obtain ⟨_, found⟩ := has_vector_iff.mp there
    have gone := Store.length_ids_erase found
    simp only [population, without]
    omega
  | string s =>
    obtain ⟨_, found⟩ := has_string_iff.mp there
    have gone := Store.length_ids_erase found
    simp only [population, without]
    omega
  | frame f =>
    obtain ⟨_, found⟩ := has_frame_iff.mp there
    have gone := Store.length_ids_erase found
    simp only [population, without]
    omega
  | peer p =>
    obtain ⟨_, found⟩ := has_peer_iff.mp there
    have gone := Store.length_ids_erase found
    simp only [population, without]
    omega

/-- A burial takes one object away, and hands in its peer. -/
theorem bury_handsIn (I : h.Intact) (r : Ref) :
    ∃ p, HandsIn p (h.without r) (h.bury r) ∧ ∀ r' ∈ (h.bury r).refs, r' ∈ h.refs := by
  rcases bury_cases I r with ⟨plain, _⟩ | ⟨o, c, p, rfl, _, _, pointer, handed⟩
  · exact ⟨⟨0⟩, plain ▸ .refl _ _, fun r' held => mem_refs_without (plain ▸ held)⟩
  · refine ⟨p, handed ▸ .reclaim _ c p, fun r' held => ?_⟩
    rcases (HandsIn.reclaim _ c p).refs r' (handed ▸ held) with old | rfl
    · exact mem_refs_without old
    · exact peerOf_held pointer

theorem population_bury (I : h.Intact) (there : h.has r = true) :
    (h.bury r).population + 1 = h.population := by
  obtain ⟨p, H, _⟩ := bury_handsIn I r
  rw [H.population, population_without there]

/-- What is dead besides stays dead, contexts as long as only contexts are buried. -/
theorem dead_bury (I : h.Intact) (dead : r' ∈ h.dead roots) (other : r ≠ r')
    (first : ∀ c', r' = .context c' → ∃ c, r = .context c) : r' ∈ (h.bury r).dead roots := by
  obtain ⟨p, H, refs⟩ := bury_handsIn I r
  obtain ⟨there, rootless, unheld, idle⟩ := mem_dead_iff.mp dead
  refine mem_dead_iff.mpr ⟨?_, rootless, fun held => unheld (refs r' held), ?_⟩
  · rw [H.has, has_without other, there]
  · rintro c' rfl
    obtain ⟨c, rfl⟩ := first c' rfl
    have kept : (h.bury (.context c)).contexts.find? c' = h.contexts.find? c' := by
      rw [show h.bury (.context c) = h.without (.context c) from rfl, without, Store.find_erase,
        if_neg (fun same => other (congrArg Ref.context same))]
    rw [isIdle, kept]
    exact idle c' rfl

/-! ### Rounds -/

/-- No object comes twice, and contexts come first. -/
def InOrder (rs : List Ref) : Prop :=
  rs.Pairwise (fun r r' => r ≠ r' ∧ ∀ c', r' = .context c' → ∃ c, r = .context c)

theorem inOrder_dead (h : Heap) (roots : List Ref) : InOrder (h.dead roots) := by
  have apart : ∀ {k : Kind} (s : List (Id k)) (held : List (Id k)), s.Nodup → (unheld s held).Nodup :=
    fun _ _ nodup => nodup.filter _
  have contexts := (apart h.contexts.ids ((roots ++ h.refs).filterMap Ref.context?)
    h.contexts.nodup_ids).filter h.isIdle
  have vectors := apart h.vectors.ids ((roots ++ h.refs).filterMap Ref.vector?) h.vectors.nodup_ids
  have strings := apart h.strings.ids ((roots ++ h.refs).filterMap Ref.string?) h.strings.nodup_ids
  have frames := apart h.frames.ids ((roots ++ h.refs).filterMap Ref.frame?) h.frames.nodup_ids
  have peers := apart h.peers.ids ((roots ++ h.refs).filterMap Ref.peer?) h.peers.nodup_ids
  unfold InOrder dead
  simp only [List.pairwise_append, List.pairwise_map, List.mem_append, List.mem_map]
  refine ⟨⟨⟨⟨?_, ?_, ?_⟩, ?_, ?_⟩, ?_, ?_⟩, ?_, ?_⟩
  · exact contexts.imp (fun ne => ⟨fun same => ne (Ref.context.inj same), fun _ _ => ⟨_, rfl⟩⟩)
  · exact vectors.imp (fun ne => ⟨fun same => ne (Ref.vector.inj same), by simp⟩)
  · rintro _ ⟨_, _, rfl⟩ _ ⟨_, _, rfl⟩
    simp
  · exact strings.imp (fun ne => ⟨fun same => ne (Ref.string.inj same), by simp⟩)
  · rintro _ (⟨_, _, rfl⟩ | ⟨_, _, rfl⟩) _ ⟨_, _, rfl⟩ <;> simp
  · exact frames.imp (fun ne => ⟨fun same => ne (Ref.frame.inj same), by simp⟩)
  · rintro _ ((⟨_, _, rfl⟩ | ⟨_, _, rfl⟩) | ⟨_, _, rfl⟩) _ ⟨_, _, rfl⟩ <;> simp
  · exact peers.imp (fun ne => ⟨fun same => ne (Ref.peer.inj same), by simp⟩)
  · rintro _ (((⟨_, _, rfl⟩ | ⟨_, _, rfl⟩) | ⟨_, _, rfl⟩) | ⟨_, _, rfl⟩) _ ⟨_, _, rfl⟩ <;> simp

structure Outlives (roots : List Ref) (P : Heap → Prop) : Prop where
  intact : ∀ h, P h → h.Intact
  bury : ∀ h r, P h → r ∈ h.dead roots → P (h.bury r)

structure Endures (roots : List Ref) (P : Heap → Prop) : Prop extends Outlives roots P where
  work : ∀ h c, P h → P (h.work c)

section
variable {P : Heap → Prop}

/-- Burying the dead one after the other takes one object away each time. -/
theorem Outlives.foldl_bury (K : Outlives roots P) {rs : List Ref} (order : InOrder rs) :
    ∀ {h : Heap}, P h → (∀ r ∈ rs, r ∈ h.dead roots) →
      P (rs.foldl Heap.bury h) ∧ (rs.foldl Heap.bury h).population + rs.length = h.population := by
  induction rs with
  | nil => exact fun start _ => ⟨start, rfl⟩
  | cons r rs ih =>
    intro h start dead
    obtain ⟨first, rest⟩ := List.forall_mem_cons.mp dead
    obtain ⟨before, order⟩ := List.pairwise_cons.mp order
    have I := K.intact h start
    have left : ∀ r' ∈ rs, r' ∈ (h.bury r).dead roots := fun r' hr' =>
      dead_bury I (rest r' hr') (before r' hr').1 (before r' hr').2
    obtain ⟨kept, count⟩ := ih order (K.bury h r start first) left
    have one := population_bury I (mem_dead_iff.mp first).1
    refine ⟨kept, ?_⟩
    rw [List.foldl_cons, List.length_cons]
    omega

theorem population_pos (there : h.has r = true) : 0 < h.population := by
  have fewer := population_without there
  omega

theorem Outlives.collectWithin (K : Outlives roots P) (n : Nat) (start : P h) (rounds : h.population ≤ n) :
    P (collectWithin roots n h) ∧ (collectWithin roots n h).dead roots = [] ∧
      (collectWithin roots n h = h ∨ (collectWithin roots n h).population < h.population) := by
  induction n generalizing h with
  | zero =>
    refine ⟨start, List.eq_nil_iff_forall_not_mem.mpr (fun r dead => ?_), .inl rfl⟩
    have some := population_pos (mem_dead_iff.mp dead).1
    exact absurd rounds (Nat.not_le.mpr some)
  | succ n ih =>
    unfold Heap.collectWithin
    split
    · rename_i none
      exact ⟨start, none, .inl rfl⟩
    · rename_i some
      obtain ⟨kept, count⟩ := K.foldl_bury (inOrder_dead h roots) start (fun _ => id)
      have fewer := List.length_pos_iff.mpr some
      obtain ⟨kept, none, same | less⟩ := ih kept (by omega)
      · exact ⟨kept, none, .inr (by rw [same]; omega)⟩
      · exact ⟨kept, none, .inr (by omega)⟩

theorem Outlives.collect (K : Outlives roots P) (start : P h) :
    P (h.collect roots) ∧ (h.collect roots).dead roots = [] ∧
      (h.collect roots = h ∨ (h.collect roots).population < h.population) :=
  K.collectWithin h.population start (Nat.le_refl _)

end

/-! ### Turns of workers -/

def queueOf (h : Heap) (c : ContextId) : List PeerId :=
  ((h.contexts.find? c).map (·.reclaimer.queue)).getD []

theorem isIdle_iff {c : ContextId} : h.isIdle c = true ↔ h.queueOf c = [] := by
  unfold isIdle queueOf
  cases h.contexts.find? c with
  | none => exact ⟨fun _ => rfl, fun _ => rfl⟩
  | some ctx => exact List.isEmpty_iff

theorem queueOf_modifyContext (h : Heap) (c d : ContextId) {f : Context → Context}
    (same : ∀ ctx, (f ctx).reclaimer.queue = ctx.reclaimer.queue) :
    (h.modifyContext c f).queueOf d = h.queueOf d :=
  congrArg (·.getD []) (h.contexts.map_find_modify c d f (·.reclaimer.queue) (fun _ _ => same _))

theorem queueOf_finishPeer (h : Heap) (c d : ContextId) (p : PeerId) :
    (h.finishPeer c p).queueOf d = h.queueOf d := by
  have released : (h.release c p).1.queueOf d = h.queueOf d := by
    cases found : h.peers.find? p with
    | none =>
      unfold release
      rw [found]
    | some q =>
      rw [release_eq found]
      split
      · rfl
      · exact queueOf_modifyContext h c d (fun _ => rfl)
  refine (queueOf_modifyContext _ c d (f := fun ctx => { ctx with
    reclaimer := ctx.reclaimer.finish (h.release c p).2 }) (fun _ => rfl)).trans released

theorem work_of_idle {c : ContextId} (empty : h.queueOf c = []) : h.work c = h := by
  rcases work_cases h c with idle | ⟨ctx, p, rest, found, queue, _⟩
  · exact idle
  · rw [queueOf, found, Option.map_some, Option.getD_some, queue] at empty
    exact absurd empty (by simp)

theorem work_of_queue {ctx : Context} {rest : List PeerId} (found : h.contexts.find? c = some ctx)
    (queue : ctx.reclaimer.queue = p :: rest) : h.work c =
      (h.modifyReclaimer c (fun _ => { ctx.reclaimer with queue := rest })).finishPeer c p := by
  unfold work
  rw [found, Option.bind_some, Reclaimer.dequeue?, queue]

theorem queueOf_work (h : Heap) (c d : ContextId) :
    (h.work c).queueOf d = if c = d then (h.queueOf d).tail else h.queueOf d := by
  cases waiting : h.queueOf c with
  | nil =>
    rw [work_of_idle waiting]
    split
    · rename_i same
      rw [← same, waiting, List.tail_nil]
    · rfl
  | cons p rest =>
    cases found : h.contexts.find? c with
    | none =>
      rw [queueOf, found] at waiting
      exact absurd waiting (by simp)
    | some ctx =>
      have queue : ctx.reclaimer.queue = p :: rest := by
        rw [queueOf, found] at waiting
        exact waiting
      rw [work_of_queue found queue, queueOf_finishPeer, queueOf, Heap.modifyReclaimer, modifyContext,
        Store.find_modify]
      split
      · rename_i same
        subst same
        rw [waiting, found]
        rfl
      · rfl

theorem turns_of_work (h : Heap) (c : ContextId) (n : Nat) :
    let h' := (List.range n).foldl (fun h _ => h.work c) h
    h'.population = h.population ∧ h'.contexts.ids = h.contexts.ids ∧
      ∀ d, h'.queueOf d = if c = d then (h.queueOf d).drop n else h.queueOf d := by
  induction n with
  | zero => exact ⟨rfl, rfl, fun d => by simp⟩
  | succ n ih =>
    obtain ⟨population, ids, queues⟩ := ih
    simp only [List.range_succ, List.foldl_append, List.foldl_cons, List.foldl_nil]
    obtain ⟨_, H⟩ := work_handsIn ((List.range n).foldl (fun h _ => h.work c) h) c
    refine ⟨H.population.trans population, H.contexts.trans ids, fun d => ?_⟩
    rw [queueOf_work, queues]
    split
    · rw [List.tail_drop]
    · rfl

theorem drain_turns (h : Heap) (c : ContextId) :
    (h.drain c).population = h.population ∧ (h.drain c).contexts.ids = h.contexts.ids ∧
      ∀ d, (h.drain c).queueOf d = if c = d then [] else h.queueOf d := by
  obtain ⟨population, ids, queues⟩ := turns_of_work h c (h.queueOf c).length
  have queued : ((h.contexts.find? c).map (fun ctx => ctx.reclaimer.queue.length)).getD 0 =
      (h.queueOf c).length := by
    unfold queueOf
    cases h.contexts.find? c <;> rfl
  unfold drain
  rw [queued]
  refine ⟨population, ids, fun d => (queues d).trans ?_⟩
  split
  · rename_i same
    rw [← same, List.drop_length]
  · rfl

def Idle (h : Heap) : Prop := ∀ c ∈ h.contexts.ids, h.queueOf c = []

theorem idle_iff : h.contexts.ids.all h.isIdle = true ↔ h.Idle := by
  rw [List.all_eq_true]
  exact forall₂_congr (fun _ _ => isIdle_iff)

theorem foldl_drain (cs : List ContextId) (h : Heap) :
    (cs.foldl drain h).population = h.population ∧ (cs.foldl drain h).contexts.ids = h.contexts.ids ∧
      ∀ d, (cs.foldl drain h).queueOf d = if d ∈ cs then [] else h.queueOf d := by
  induction cs generalizing h with
  | nil => exact ⟨rfl, rfl, fun d => by simp⟩
  | cons c cs ih =>
    obtain ⟨population, ids, queues⟩ := drain_turns h c
    obtain ⟨population', ids', queues'⟩ := ih (h.drain c)
    refine ⟨population'.trans population, ids'.trans ids, fun d => ?_⟩
    rw [List.foldl_cons, queues', queues]
    by_cases later : d ∈ cs
    · rw [if_pos later, if_pos (List.mem_cons_of_mem c later)]
    · simp only [List.mem_cons, later, or_false, if_false, eq_comm]

theorem drainAll_idle (h : Heap) : h.drainAll.population = h.population ∧ h.drainAll.Idle := by
  obtain ⟨population, ids, queues⟩ := foldl_drain h.contexts.ids h
  refine ⟨population, fun c there => ?_⟩
  rw [drainAll, queues, if_pos (ids ▸ there)]

section
variable {P : Heap → Prop}

theorem Endures.drainAll (K : Endures roots P) (start : P h) : P h.drainAll := by
  have turns : ∀ c n g, P g → P ((List.range n).foldl (fun h _ => h.work c) g) := by
    intro c n g kept
    refine List.foldlRecOn (List.range n) _ kept (fun g kept _ _ => K.work g c kept)
  exact List.foldlRecOn h.contexts.ids _ start (fun g kept c _ => turns c _ g kept)

/-! ### Settling -/

structure Settled (h : Heap) (roots : List Ref) : Prop where
  buried : h.dead roots = []
  idle : h.Idle

theorem settleWithin_succ (roots : List Ref) (n : Nat) (h : Heap) :
    settleWithin roots (n + 1) h =
      if (h.collect roots).contexts.ids.all (h.collect roots).isIdle then h.collect roots
      else settleWithin roots n (h.collect roots).drainAll := rfl

/-- From a heap whose workers are idle each round but the last takes an object away. -/
theorem Endures.settleWithin (K : Endures roots P) (n : Nat) (start : P h) (idle : h.Idle)
    (rounds : h.population < n) : P (settleWithin roots n h) ∧ (settleWithin roots n h).Settled roots := by
  induction n generalizing h with
  | zero => exact absurd rounds (Nat.not_lt_zero _)
  | succ n ih =>
    obtain ⟨kept, none, same | fewer⟩ := K.collect start
    · rw [settleWithin_succ, same, if_pos (idle_iff.mpr idle)]
      exact ⟨start, same ▸ none, idle⟩
    · rw [settleWithin_succ]
      split
      · rename_i quiet
        exact ⟨kept, none, idle_iff.mp quiet⟩
      · obtain ⟨population, drained⟩ := drainAll_idle (h.collect roots)
        exact ih (K.drainAll kept) drained (by omega)

/-- Settling keeps what burials and turns of workers keep, and it comes to an end. -/
theorem Endures.settle (K : Endures roots P) (start : P h) :
    P (h.settle roots) ∧ (h.settle roots).Settled roots := by
  obtain ⟨kept, none, more⟩ := K.collect start
  obtain ⟨population, drained⟩ := drainAll_idle (h.collect roots)
  rw [Heap.settle, settleWithin_succ]
  split
  · rename_i quiet
    exact ⟨kept, none, idle_iff.mp quiet⟩
  · refine K.settleWithin _ (K.drainAll kept) drained ?_
    rcases more with same | fewer
    · rw [population, same]
      omega
    · omega

end

end Heap
end VectorHeap
