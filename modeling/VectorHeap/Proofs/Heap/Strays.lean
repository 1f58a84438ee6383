import VectorHeap.Proofs.Heap.Tables

/-! Strays: peers that stand in the books of a context under a handle, but that no object has. A refused
registration leaves one. Nothing releases it, so its entry stays for as long as the context does. -/
namespace VectorHeap

namespace Registry

variable {r r' r'' : Registry} {k k' : Handle} {p p' : PeerId}

def Traced (r : Registry) (k : Handle) : Prop := ∀ sites, r.sites = some sites → (sites.find? k).isSome = true

theorem traced_enter (r : Registry) (k : Handle) (p : PeerId) (site : String) :
    (r.draw.enter k p site).Traced k := by
  intro sites table
  obtain ⟨old, _, rfl⟩ := Option.map_eq_some_iff.mp table
  rw [Table.find_insert, if_pos rfl]
  rfl

theorem Traced.enter (t : r.Traced k) (k' : Handle) (p : PeerId) (site : String) :
    (r.draw.enter k' p site).Traced k := by
  intro sites table
  obtain ⟨old, before, rfl⟩ := Option.map_eq_some_iff.mp table
  rw [Table.find_insert]
  split
  · rfl
  · exact t old before

theorem Traced.remove (t : r.Traced k) (k' : Handle) (p' : PeerId)
    (stays : k' = k → r.peer? k' ≠ some p') : (r.remove k' p').Traced k := by
  unfold Registry.remove
  split
  · rename_i entry
    intro sites table
    obtain ⟨old, before, rfl⟩ := Option.map_eq_some_iff.mp table
    rw [Table.find_erase, if_neg (fun same => stays same entry)]
    exact t old before
  · exact t

/-- Entries are added and not replaced, and sites come with them. -/
structure Grows (r r' : Registry) : Prop where
  entry : ∀ k p, r.peer? k = some p → r'.peer? k = some p
  traced : ∀ k, r.Traced k → r'.Traced k

namespace Grows

theorem refl (r : Registry) : r.Grows r := ⟨fun _ _ => id, fun _ => id⟩

theorem trans (G : r.Grows r') (G' : r'.Grows r'') : r.Grows r'' where
  entry k p entry := G'.entry k p (G.entry k p entry)
  traced k t := G'.traced k (G.traced k t)

theorem enter (free : r.peer? k = none) (p : PeerId) (site : String) :
    r.Grows (r.draw.enter k p site).countRegistered where
  entry k' p' entry := by
    have other : k' ≠ k := by
      rintro rfl
      exact absurd (free.symm.trans entry) (by simp)
    change (r.draw.enter k p site).peer? k' = some p'
    exact Heap.peer_entered.mpr (.inr ⟨other, entry⟩)
  traced k' t := t.enter k p site

theorem rebacked (r : Registry) (b b' : Backing) (k : Handle) :
    r.Grows ((r.dropContents b).addContents k b') where
  entry k' p entry := (Heap.peer_rebacked r b b' k k').trans entry
  traced k' t := by cases b <;> cases b' <;> exact t

end Grows
end Registry

namespace Heap

variable {T : VectorId → Backing → Prop} {P : ContextId → PeerId → Prop} {h h' h'' : Heap}
  {c d : ContextId} {k k' : Handle} {o : Object} {p : PeerId} {f : Fault}

def Bears (h : Heap) (o : Object) (c : ContextId) (k : Handle) : Prop :=
  h.contextOf? o = some c ∧ ∃ i q, h.peerOf? o = some i ∧ h.peers.find? i = some q ∧ q.handle = k

theorem Bears.back (B : h'.Bears o c k)
    (own : ∀ i, h'.contextOf? o = some c → h'.peerOf? o = some i →
      h.contextOf? o = some c ∧ h.peerOf? o = some i)
    (peers : ∀ i q', h.peerOf? o = some i → h'.peers.find? i = some q' →
      ∃ q, h.peers.find? i = some q ∧ q.handle = q'.handle) : h.Bears o c k := by
  obtain ⟨mine, i, q', pointer, found', rfl⟩ := B
  obtain ⟨mine₀, pointer₀⟩ := own i mine pointer
  obtain ⟨q, found, same⟩ := peers i q' pointer₀ found'
  exact ⟨mine₀, i, q, pointer₀, found, same⟩

/-! ### What postings keep of the registries -/

/-- Registries grow, and objects and peers stay. Nothing more refers to old peers, and what comes to a handle
comes to one that was free. -/
structure Keeps (h h' : Heap) : Prop where
  registries : ∀ c ctx, h.contexts.find? c = some ctx →
    ∃ ctx', h'.contexts.find? c = some ctx' ∧ ctx.registry.Grows ctx'.registry
  peers : ∀ p q, h.peers.find? p = some q →
    ∃ q', h'.peers.find? p = some q' ∧ q'.handle = q.handle ∧ q'.owner = q.owner
  own : ∀ o c, h.contextOf? o = some c → h'.contextOf? o = some c
  pointers : ∀ o p q, h.peers.find? p = some q → h'.peerOf? o = some p → h.peerOf? o = some p
  queues : ∀ c ctx', h'.contexts.find? c = some ctx' → ∀ p ∈ ctx'.reclaimer.queue,
    ∃ ctx, h.contexts.find? c = some ctx ∧ p ∈ ctx.reclaimer.queue
  bearers : ∀ o c k, h'.Bears o c k → h.Bears o c k ∨
    ∀ ctx, h.contexts.find? c = some ctx → ctx.registry.peer? k = none

namespace Keeps

theorem refl (h : Heap) : h.Keeps h where
  registries _ ctx found := ⟨ctx, found, .refl _⟩
  peers _ q found := ⟨q, found, rfl, rfl⟩
  own _ _ := id
  pointers _ _ _ _ := id
  queues _ ctx found _ queued := ⟨ctx, found, queued⟩
  bearers _ _ _ := .inl

theorem trans (K : h.Keeps h') (K' : h'.Keeps h'') : h.Keeps h'' where
  registries c ctx found := by
    obtain ⟨ctx', found', G⟩ := K.registries c ctx found
    obtain ⟨ctx'', found'', G'⟩ := K'.registries c ctx' found'
    exact ⟨ctx'', found'', G.trans G'⟩
  peers p q found := by
    obtain ⟨q', found', handle, owner⟩ := K.peers p q found
    obtain ⟨q'', found'', handle', owner'⟩ := K'.peers p q' found'
    exact ⟨q'', found'', handle'.trans handle, owner'.trans owner⟩
  own o c own := K'.own o c (K.own o c own)
  pointers o p q found pointer := by
    obtain ⟨q', found', _⟩ := K.peers p q found
    exact K.pointers o p q found (K'.pointers o p q' found' pointer)
  queues c ctx'' found'' p queued := by
    obtain ⟨ctx', found', queued'⟩ := K'.queues c ctx'' found'' p queued
    exact K.queues c ctx' found' p queued'
  bearers o c k B := by
    rcases K'.bearers o c k B with old | free
    · exact K.bearers o c k old
    · refine .inr (fun ctx found => ?_)
      obtain ⟨ctx', found', G⟩ := K.registries c ctx found
      refine Option.eq_none_iff_forall_ne_some.mpr (fun p entry => ?_)
      exact absurd ((free ctx' found').symm.trans (G.entry k p entry)) (by simp)

theorem of_objects (objects : ∀ o, h'.contextOf? o = h.contextOf? o ∧ h'.peerOf? o = h.peerOf? o)
    (peers : ∀ p q, h.peers.find? p = some q →
      ∃ q', h'.peers.find? p = some q' ∧ q'.handle = q.handle ∧ q'.owner = q.owner)
    (back : ∀ o p q', h.peerOf? o = some p → h'.peers.find? p = some q' →
      ∃ q, h.peers.find? p = some q ∧ q.handle = q'.handle)
    (registries : ∀ c ctx, h.contexts.find? c = some ctx →
      ∃ ctx', h'.contexts.find? c = some ctx' ∧ ctx.registry.Grows ctx'.registry)
    (queues : ∀ c ctx', h'.contexts.find? c = some ctx' → ∀ p ∈ ctx'.reclaimer.queue,
      ∃ ctx, h.contexts.find? c = some ctx ∧ p ∈ ctx.reclaimer.queue) : h.Keeps h' where
  registries := registries
  peers := peers
  own o _ own := (objects o).1.trans own
  pointers o _ _ _ pointer := (objects o).2.symm.trans pointer
  queues := queues
  bearers o _ _ B := .inl (B.back
    (fun _ own pointer => ⟨(objects o).1.symm.trans own, (objects o).2.symm.trans pointer⟩)
    (fun i q' pointer found => back o i q' pointer found))

theorem of_same (vectors : h'.vectors = h.vectors) (strings : h'.strings = h.strings)
    (peers : h'.peers = h.peers)
    (registries : ∀ c ctx, h.contexts.find? c = some ctx →
      ∃ ctx', h'.contexts.find? c = some ctx' ∧ ctx.registry.Grows ctx'.registry)
    (queues : ∀ c ctx', h'.contexts.find? c = some ctx' → ∀ p ∈ ctx'.reclaimer.queue,
      ∃ ctx, h.contexts.find? c = some ctx ∧ p ∈ ctx.reclaimer.queue) : h.Keeps h' :=
  of_objects (objects_of_same vectors strings) (fun _ q found => ⟨q, peers ▸ found, rfl, rfl⟩)
    (fun _ _ q' _ found => ⟨q', peers ▸ found, rfl⟩) registries queues

theorem modifyContext (h : Heap) (i : ContextId) (g : Context → Context)
    (grows : ∀ ctx : Context, ctx.registry.Grows (g ctx).registry)
    (queue : ∀ ctx, (g ctx).reclaimer.queue = ctx.reclaimer.queue) : h.Keeps (h.modifyContext i g) := by
  refine of_same rfl rfl rfl (fun c ctx found => ?_) (fun c ctx' found' p queued => ?_)
  · by_cases here : i = c
    · subst here
      exact ⟨g ctx, (h.contexts.find_modify_self i g).trans (congrArg (Option.map g) found), grows ctx⟩
    · exact ⟨ctx, (h.contexts.find_modify_ne g here).trans found, .refl _⟩
  · obtain ⟨ctx, found, same⟩ := exists_of_map_eq (h.contexts.map_find_modify i c g
      (fun ctx : Context => ctx.reclaimer.queue) (fun ctx _ => queue ctx)) found'
    exact ⟨ctx, found, same ▸ queued⟩

theorem modifyPeer (h : Heap) (i : PeerId) (g : Peer → Peer)
    (same : ∀ q, (g q).handle = q.handle ∧ (g q).owner = q.owner) : h.Keeps (h.modifyPeer i g) := by
  have kept : ∀ p, ((h.modifyPeer i g).peers.find? p).map (fun q => (q.handle, q.owner)) =
      (h.peers.find? p).map (fun q => (q.handle, q.owner)) := fun p =>
    h.peers.map_find_modify i p g _ (fun q _ => Prod.ext (same q).1 (same q).2)
  refine of_objects (objects_of_same rfl rfl) (fun p q found => ?_) (fun o p q' _ found' => ?_)
    (fun c ctx found => ⟨ctx, found, .refl _⟩) (fun c ctx found p queued => ⟨ctx, found, queued⟩)
  · obtain ⟨q', found', fields⟩ := exists_of_map_eq (kept p).symm found
    exact ⟨q', found', (congrArg Prod.fst fields).symm, (congrArg Prod.snd fields).symm⟩
  · obtain ⟨q, found, fields⟩ := exists_of_map_eq (kept p) found'
    exact ⟨q, found, (congrArg Prod.fst fields).symm⟩

theorem addPeer (G : h.Grounded) (q₀ : Peer) : h.Keeps { h with peers := h.peers.add q₀ } := by
  refine of_objects (objects_of_same rfl rfl)
    (fun p q found => ⟨q, Store.find_add_of_find _ found, rfl, rfl⟩) (fun o p q' pointer found' => ?_)
    (fun c ctx found => ⟨ctx, found, .refl _⟩) (fun c ctx found p queued => ⟨ctx, found, queued⟩)
  obtain ⟨q, found⟩ := G p (.pointer o pointer)
  cases (Store.find_add_of_find q₀ found).symm.trans found'
  exact ⟨q', found, rfl⟩

theorem listed (G : h.Grounded) {ctx₀ : Context} (found₀ : h.contexts.find? d = some ctx₀)
    (own : h.contextOf? o = some d) (free : ctx₀.registry.peer? k = none) (site : String) :
    h.Keeps (h.listed d k o site) := by
  have alive : h.isAlive o = true := isAlive_iff_contextOf.mpr ⟨d, own⟩
  refine ⟨fun c ctx found => ?_, fun p q found => ⟨q, find_listed_of_find found, rfl, rfl⟩,
    fun o' c own => (contextOf_listed ..).trans own, fun o' p q found pointer => ?_,
    fun c ctx' found' p queued => ?_, fun o' c k' B => ?_⟩
  · by_cases here : d = c
    · subst here
      cases found₀.symm.trans found
      exact ⟨_, context_listed found, .enter free _ site⟩
    · exact ⟨ctx, (context_listed_ne here).trans found, .refl _⟩
  · rw [peerOf_listed alive] at pointer
    split at pointer
    · exact absurd (Option.some.inj pointer).symm (ne_fresh_of_find found)
    · exact pointer
  · by_cases here : d = c
    · subst here
      cases (context_listed found₀).symm.trans found'
      exact ⟨ctx₀, found₀, queued⟩
    · exact ⟨ctx', (context_listed_ne here).symm.trans found', queued⟩
  · obtain ⟨mine, i, q', pointer, found', rfl⟩ := B
    rw [contextOf_listed] at mine
    rw [peerOf_listed alive] at pointer
    split at pointer
    · rename_i same
      subst same
      cases own.symm.trans mine
      cases pointer
      cases find_listed_fresh.symm.trans found'
      refine .inr (fun ctx found => ?_)
      cases found₀.symm.trans found
      exact free
    · obtain ⟨q, found⟩ := G i (.pointer o' pointer)
      cases (find_listed_of_find found).symm.trans found'
      exact .inl ⟨mine, i, q', pointer, found, rfl⟩

end Keeps

theorem Quiet.keeps (Q : h.Quiet h') : h.Keeps h' := by
  refine ⟨fun c ctx found => ?_, fun p q found => ?_, Q.own,
    fun o p _ _ pointer => (Q.pointers o).symm.trans pointer, fun c ctx' found' p queued => ?_,
    fun o c k B => .inl ?_⟩
  · obtain ⟨ctx', found', same⟩ := exists_of_map_eq (Q.contexts c).symm found
    have registry : ctx.registry = ctx'.registry := congrArg (·.2.1) same
    exact ⟨ctx', found', registry ▸ .refl _⟩
  · obtain ⟨q', found', outline⟩ := exists_of_map_eq (Q.peers p).symm found
    exact ⟨q', found', (congrArg (·.1) outline).symm, (congrArg (·.2.1) outline).symm⟩
  · obtain ⟨ctx, found, same⟩ := exists_of_map_eq (Q.contexts c) found'
    have reclaimer : ctx'.reclaimer = ctx.reclaimer := congrArg (·.2.2.1) same
    exact ⟨ctx, found, reclaimer ▸ queued⟩
  · refine B.back (fun i own pointer => Q.own_back own pointer) (fun i q' _ found' => ?_)
    obtain ⟨q, found, outline⟩ := exists_of_map_eq (Q.peers i) found'
    exact ⟨q, found, (congrArg (·.1) outline).symm⟩

theorem Posting.keeps (posting : Posting T h h') (G : h.Grounded) : h.Keeps h' := by
  cases posting with
  | quiet Q => exact Q.keeps
  | context config unclaimed =>
    refine .of_same rfl rfl rfl (fun c ctx found => ?_) (fun c ctx' found' p queued => ?_)
    · exact ⟨ctx, Store.find_add_of_find _ found, .refl _⟩
    · rcases Store.eq_or_find_of_find_add found' with ⟨_, rfl⟩ | old
      · exact absurd queued (by simp [Context.ofConfig])
      · exact ⟨ctx', old, queued⟩
  | buffer foreign n nonzero free =>
    exact .of_same rfl rfl rfl (fun c ctx found => ⟨ctx, found, .refl _⟩)
      (fun c ctx found p queued => ⟨ctx, found, queued⟩)
  | sentinel i ctx₀ address n found₀ none nonzero free =>
    have placed : h.Keeps { h with allocations := n } :=
      .of_same rfl rfl rfl (fun c ctx found => ⟨ctx, found, .refl _⟩)
        (fun c ctx found p queued => ⟨ctx, found, queued⟩)
    exact placed.trans (.modifyContext _ i _ (fun _ => .refl _) (fun _ => rfl))
  | listed i ctx₀ o site found₀ own bare free => exact .listed G found₀ own free site
  | backed i o p₀ q₀ b own pointer hq offered allowed =>
    have counted := Keeps.modifyContext h i (fun ctx => { ctx with
      registry := (ctx.registry.dropContents q₀.backing).addContents q₀.handle b })
      (fun ctx => .rebacked ..) (fun _ => rfl)
    exact counted.trans (.modifyPeer _ p₀ _ (fun _ => ⟨rfl, rfl⟩))

theorem Posted.keeps (posted : Posted T h h') (G : h.Grounded) : h'.Grounded ∧ h.Keeps h' :=
  posted.carry (P := fun g => g.Grounded ∧ h.Keeps g) ⟨G, .refl h⟩
    (fun _ last ⟨G, K⟩ => ⟨last.grounded G, K.trans (last.keeps G)⟩)

/-! ### Lookups -/

theorem resolve_iff_entry : h.resolve? c k = some o ↔
    ∃ ctx i q, h.contexts.find? c = some ctx ∧ ctx.registry.peer? k = some i ∧
      h.peers.find? i = some q ∧ h.isAlive o = true ∧ q.owner = o := by
  unfold resolve?
  simp only [Option.bind_eq_bind, Option.bind_eq_some_iff]
  constructor
  · rintro ⟨ctx, found, i, entry, q, hq, owner⟩
    split at owner
    · cases owner
      exact ⟨ctx, i, q, found, entry, hq, ‹_›, rfl⟩
    · cases owner
  · rintro ⟨ctx, i, q, found, entry, hq, alive, rfl⟩
    exact ⟨ctx, found, i, entry, q, hq, if_pos alive⟩

theorem Keeps.isAlive (K : h.Keeps h') (alive : h.isAlive o = true) : h'.isAlive o = true := by
  obtain ⟨c, own⟩ := isAlive_iff_contextOf.mp alive
  exact isAlive_iff_contextOf.mpr ⟨c, K.own o c own⟩

theorem Keeps.resolve (K : h.Keeps h') (resolved : h.resolve? c k = some o) :
    h'.resolve? c k = some o := by
  obtain ⟨ctx, i, q, found, entry, hq, alive, owner⟩ := resolve_iff_entry.mp resolved
  obtain ⟨ctx', found', G⟩ := K.registries c ctx found
  obtain ⟨q', hq', _, owner'⟩ := K.peers i q hq
  exact resolve_iff_entry.mpr ⟨ctx', i, q', found', G.entry k i entry, hq', K.isAlive alive, owner'.trans owner⟩

/-! ### Strays -/

/-- A peer has the entry of a handle in a context, but no object has the peer, and it waits nowhere for
its release. The object that it was made for did not come to that handle in another way. -/
structure Stray (h : Heap) (c : ContextId) (k : Handle) (p : PeerId) : Prop where
  entry : ∃ ctx, h.contexts.find? c = some ctx ∧ ctx.registry.peer? k = some p ∧ ctx.registry.Traced k
  unpointed : ∀ o, h.peerOf? o ≠ some p
  unqueued : ∀ d ctx, h.contexts.find? d = some ctx → p ∉ ctx.reclaimer.queue
  owner : ∃ q, h.peers.find? p = some q ∧ q.handle = k ∧ ¬ h.Bears q.owner c k

theorem Keeps.stray (K : h.Keeps h') (S : h.Stray c k p) : h'.Stray c k p := by
  obtain ⟨ctx, found, entry, traced⟩ := S.entry
  obtain ⟨q, hq, handle, alone⟩ := S.owner
  obtain ⟨ctx', found', G⟩ := K.registries c ctx found
  obtain ⟨q', hq', handle', owner'⟩ := K.peers p q hq
  refine ⟨⟨ctx', found', G.entry k p entry, G.traced k traced⟩,
    fun o pointer => S.unpointed o (K.pointers o p q hq pointer), fun d ctx' found' queued => ?_,
    q', hq', handle'.trans handle, fun B => ?_⟩
  · obtain ⟨ctx, found, queued⟩ := K.queues d ctx' found' p queued
    exact S.unqueued d ctx found queued
  · rw [owner'] at B
    rcases K.bearers q.owner c k B with old | free
    · exact alone old
    · exact absurd ((free ctx found).symm.trans entry) (by simp)

theorem Stray.modifyContext (S : h.Stray c k p) (i : ContextId) (g : Context → Context)
    (kept : i = c → ∀ ctx : Context, ctx.registry.peer? k = some p → ctx.registry.Traced k →
      (g ctx).registry.peer? k = some p ∧ (g ctx).registry.Traced k)
    (queue : ∀ ctx, h.contexts.find? i = some ctx → p ∈ (g ctx).reclaimer.queue →
      p ∈ ctx.reclaimer.queue) : (h.modifyContext i g).Stray c k p := by
  obtain ⟨ctx, found, entry, traced⟩ := S.entry
  obtain ⟨q, hq, handle, alone⟩ := S.owner
  have same : ∀ o, (h.modifyContext i g).contextOf? o = h.contextOf? o ∧
      (h.modifyContext i g).peerOf? o = h.peerOf? o := objects_of_same rfl rfl
  refine ⟨?_, fun o pointer => S.unpointed o ((same o).2.symm.trans pointer),
    fun d ctx' found' queued => ?_, q, hq, handle, fun B => alone ?_⟩
  · by_cases here : i = c
    · subst here
      exact ⟨g ctx, (h.contexts.find_modify_self i g).trans (congrArg (Option.map g) found),
        kept rfl ctx entry traced⟩
    · exact ⟨ctx, (h.contexts.find_modify_ne g here).trans found, entry, traced⟩
  · by_cases here : i = d
    · subst here
      obtain ⟨ctx, found, rfl⟩ := Option.map_eq_some_iff.mp ((h.contexts.find_modify_self i g).symm.trans found')
      exact S.unqueued i ctx found (queue ctx found queued)
    · exact S.unqueued d ctx' ((h.contexts.find_modify_ne g here).symm.trans found') queued
  · exact B.back (fun j own pointer => ⟨(same _).1.symm.trans own, (same _).2.symm.trans pointer⟩)
      (fun j q' _ found' => ⟨q', found', rfl⟩)

/-! ### Refusals leave one more -/

theorem stray_entered (G : h.Grounded) {ctx : Context} (found : h.contexts.find? c = some ctx)
    (bare : h.peerOf? o = none) (site : String) : (h.entered c k o site).Stray c k h.peers.fresh := by
  have pointers : ∀ o', (h.entered c k o site).peerOf? o' = h.peerOf? o' := fun o' => by cases o' <;> rfl
  refine ⟨⟨{ ctx with registry := ctx.registry.draw.enter k h.peers.fresh site },
      (Store.find_modify_self _ c _).trans (congrArg (Option.map _) found),
      peer_entered.mpr (.inl ⟨rfl, rfl⟩), Registry.traced_enter _ _ _ _⟩, fun o' pointer => ?_,
    fun d ctx' found' queued => ?_, _, find_peer_entered h c k o site, rfl, fun B => ?_⟩
  · exact G.ne_fresh (.pointer o' ((pointers o').symm.trans pointer)) rfl
  · obtain ⟨ctx₁, found₁, same⟩ := exists_of_map_eq (h.contexts.map_find_modify c d
      (fun ctx => { ctx with registry := ctx.registry.draw.enter k h.peers.fresh site }) (·.reclaimer)
      (fun _ _ => rfl)) found'
    exact G.ne_fresh (.queued d ctx₁ found₁ (same ▸ queued)) rfl
  · obtain ⟨_, i, q, pointer, _⟩ := B
    rw [pointers, bare] at pointer
    exact absurd pointer (by simp)

theorem Stray.entered (S : h.Stray c k p) (G : h.Grounded) (other : ¬ (d = c ∧ k' = k)) (o : Object)
    (site : String) : (h.entered d k' o site).Stray c k p := by
  refine ((Keeps.addPeer G { handle := k', owner := o }).stray S).modifyContext d _ ?_ (fun _ _ => id)
  rintro rfl ctx entry traced
  exact ⟨peer_entered.mpr (.inr ⟨fun same => other ⟨rfl, same.symm⟩, entry⟩), traced.enter _ _ _⟩

/-- Where a stray had the entry, a stray has it after a refusal. -/
theorem Refusal.stray (R : h.Refusal f h') (G : h.Grounded) (S : h.Stray c k p) :
    ∃ p', h'.Stray c k p' := by
  induction R with
  | entered h d ctx o site found issued bare taken =>
    by_cases same : d = c ∧ ctx.registry.nextHandle = k
    · obtain ⟨rfl, rfl⟩ := same
      exact ⟨_, stray_entered G found bare site⟩
    · exact ⟨p, S.entered G same o site⟩
  | discarded h h' cell rest ih =>
    have Q := Quiet.discarded h cell
    exact ih (Posting.grounded (T := fun _ => Nowhere) (.quiet Q) G) (Q.keeps.stray S)

theorem resolve_entered (G : h.Grounded) {ctx : Context} (found : h.contexts.find? c = some ctx)
    (other : ¬ (d = c ∧ k' = k)) {o₀ : Object} {site : String} (resolved : h.resolve? d k' = some o) :
    (h.entered c k o₀ site).resolve? d k' = some o := by
  have K := Keeps.addPeer G { handle := k, owner := o₀ }
  obtain ⟨ctx', i, q, found', entry, hq, alive, owner⟩ := resolve_iff_entry.mp (K.resolve resolved)
  have alive' : (h.entered c k o₀ site).isAlive o = true := by cases o <;> exact alive
  by_cases here : c = d
  · subst here
    cases found.symm.trans found'
    exact resolve_iff_entry.mpr ⟨{ ctx with registry := ctx.registry.draw.enter k h.peers.fresh site }, i, q,
      (Store.find_modify_self _ c _).trans (congrArg (Option.map _) found),
      peer_entered.mpr (.inr ⟨fun same => other ⟨rfl, same⟩, entry⟩), hq, alive', owner⟩
  · exact resolve_iff_entry.mpr ⟨ctx', i, q, (Store.find_modify_ne _ _ here).trans found', entry, hq,
      alive', owner⟩

/-- A registration of a handle that is taken leaves a new peer with the entry, and every other handle is
found as before. -/
theorem Refusal.leaves (R : h.Refusal (.panic (.registeredTwice k)) h') (G : h.Grounded) :
    ∃ c p, h.peers.next ≤ p.index ∧ h'.Stray c k p ∧ ∀ d k' o, ¬ (d = c ∧ k' = k) →
      h.resolve? d k' = some o → h'.resolve? d k' = some o := by
  induction R with
  | entered h c ctx o site found issued bare taken =>
    cases taken
    exact ⟨c, h.peers.fresh, Nat.le_refl _, stray_entered G found bare site,
      fun d k' o' other resolved => resolve_entered G found other resolved⟩
  | discarded h h' cell rest ih =>
    have Q := Quiet.discarded h cell
    obtain ⟨c, p, new, S, others⟩ := ih (Posting.grounded (T := fun _ => Nowhere) (.quiet Q) G)
    exact ⟨c, p, new, S, fun d k' o other resolved => others d k' o other (Q.keeps.resolve resolved)⟩

/-! ### Clearing up leaves strays -/

theorem Stray.without (S : h.Stray c k p) {r : Ref} (unheld : r ∉ h.refs)
    (there : (h.without r).has (.context c) = true) : (h.without r).Stray c k p := by
  obtain ⟨_, _, peers, contexts, _⟩ := find_without h r
  obtain ⟨own, pointers⟩ := objects_without h r
  obtain ⟨ctx, found, entry, traced⟩ := S.entry
  obtain ⟨q, hq, handle, alone⟩ := S.owner
  obtain ⟨ctx', found'⟩ := has_context_iff.mp there
  cases found.symm.trans (contexts c ctx' found')
  have stays : (h.without r).peers.find? p = some q :=
    (find_peer_without unheld (listed_held found entry)).trans hq
  refine ⟨⟨ctx, found', entry, traced⟩, fun o pointer => S.unpointed o (pointers o p pointer),
    fun d ctx'' found'' => S.unqueued d ctx'' (contexts d ctx'' found''), q, stays, handle,
    fun B => alone ?_⟩
  exact B.back (fun i mine pointer => ⟨own _ c mine, pointers _ i pointer⟩)
    (fun i q' _ found' => ⟨q', peers i q' found', rfl⟩)

theorem Stray.released (S : h.Stray c k p) (d : ContextId) {i : PeerId} (other : i ≠ p) (q : Peer) :
    ((h.modifyRegistry d (fun r => (r.remove q.handle i).dropContents q.backing)).modifyPeer i
      Peer.emptied).Stray c k p := by
  refine Keeps.stray (.modifyPeer _ i _ (fun _ => ⟨rfl, rfl⟩)) (S.modifyContext d _ ?_ (fun _ _ => id))
  rintro rfl ctx entry traced
  have stays : q.handle = k → ctx.registry.peer? q.handle ≠ some i := by
    rintro rfl taken
    exact other (Option.some.inj (taken.symm.trans entry))
  have kept : (ctx.registry.remove q.handle i).peer? k = some p :=
    peer_remove_iff.mpr ⟨entry, fun same => stays same.1.symm same.2⟩
  have traced' := traced.remove q.handle i stays
  refine ⟨(congrArg (·.find? k) (accounts_dropContents _ q.backing).1).trans kept, ?_⟩
  cases q.backing <;> exact traced'

theorem Clearing.stray (C : Clearing P h h') (unreleased : ∀ d, ¬ P d p)
    (there : h'.has (.context c) = true) (S : h.Stray c k p) : h'.Stray c k p := by
  cases C with
  | gone r unheld => exact S.without unheld there
  | noted d g queue =>
    refine S.modifyContext d _ (fun _ _ entry traced => ⟨entry, traced⟩) (fun ctx found queued => ?_)
    rcases queue ctx found p queued with old | ⟨given, _⟩
    · exact old
    · exact absurd given (unreleased d)
  | reported panics =>
    have K : h.Keeps { h with panics } := .of_same rfl rfl rfl (fun c ctx found => ⟨ctx, found, .refl _⟩)
      (fun c ctx found p queued => ⟨ctx, found, queued⟩)
    exact K.stray S
  | released d i q found live unpointed given =>
    have other : i ≠ p := by
      rintro rfl
      exact unreleased d given
    exact S.released d other q

theorem Clearing.context (C : Clearing P h h') (there : h'.has (.context c) = true) :
    h.has (.context c) = true := by
  obtain ⟨ctx', found'⟩ := has_context_iff.mp there
  have back : ∀ {i : ContextId} {g : Context → Context},
      (h.modifyContext i g).contexts.find? c = some ctx' → h.has (.context c) = true := by
    intro i g found
    obtain ⟨ctx, old, _⟩ := exists_of_map_eq (h.contexts.map_find_modify i c g (fun _ => ())
      (fun _ _ => rfl)) found
    exact has_context_iff.mpr ⟨ctx, old⟩
  cases C with
  | gone r unheld => exact has_context_iff.mpr ⟨ctx', (find_without h r).2.2.2.1 c ctx' found'⟩
  | noted d g queue => exact back found'
  | reported panics => exact there
  | released d i q found live unpointed given => exact back found'

theorem Cleared.stray (cleared : Cleared P h h') (unreleased : ∀ d, ¬ P d p)
    (there : h'.has (.context c) = true) (S : h.Stray c k p) : h'.Stray c k p := by
  induction cleared with
  | refl => exact S
  | tail _ last ih => exact last.stray unreleased there (ih (last.context there))

end Heap
end VectorHeap
