import VectorHeap.Proofs.Heap.Elements

/-! Burials and releases. A heap sheds what is not referred to any more: objects go, entries of
registries go, and peers of dead objects lose their contents. Whatever is left is as it was. -/
namespace VectorHeap

def Peer.emptied (q : Peer) : Peer := { q with backing := .unallocated, pins := [], released := true }

structure Peer.Fades (q q' : Peer) : Prop where
  handle : q'.handle = q.handle
  owner : q'.owner = q.owner
  released : q.released = true → q'.released = true
  backing : q'.backing = q.backing ∨ q'.backing = .unallocated
  pins : q'.pins = q.pins ∨ q'.pins = []

theorem Peer.Fades.trans {q q' q'' : Peer} (F : q.Fades q') (F' : q'.Fades q'') : q.Fades q'' where
  handle := F'.handle.trans F.handle
  owner := F'.owner.trans F.owner
  released marked := F'.released (F.released marked)
  backing := F'.backing.elim (fun same => same ▸ F.backing) .inr
  pins := F'.pins.elim (fun same => same ▸ F.pins) .inr

theorem Peer.fades_emptied (q : Peer) : q.Fades q.emptied := ⟨rfl, rfl, fun _ => rfl, .inr rfl, .inr rfl⟩

namespace Heap

/-- Nothing comes up, and what is still referred to stays. Only peers of dead objects are released
or queued. -/
structure Sheds (h h' : Heap) : Prop where
  vectors : ∀ v cell, h'.vectors.find? v = some cell → h.vectors.find? v = some cell
  strings : ∀ s cell, h'.strings.find? s = some cell → h.strings.find? s = some cell
  frames : ∀ f b, h'.frames.find? f = some b → h.frames.find? f = some b
  peers : ∀ p q', h'.peers.find? p = some q' → ∃ q, h.peers.find? p = some q ∧
    (q' = q ∨ (q.Fades q' ∧ h'.isAlive q.owner = false))
  contexts : ∀ c ctx', h'.contexts.find? c = some ctx' → ∃ ctx, h.contexts.find? c = some ctx ∧
    ctx'.sentinel = ctx.sentinel ∧ ctx'.switches = ctx.switches ∧ ctx'.naString = ctx.naString ∧
    ctx'.registry.counter = ctx.registry.counter ∧ ctx'.registry.stride = ctx.registry.stride ∧
    (∀ k p, ctx'.registry.peer? k = some p → ctx.registry.peer? k = some p) ∧
    ∀ p ∈ ctx'.reclaimer.queue, p ∈ ctx.reclaimer.queue ∨
      ∃ q, h.peers.find? p = some q ∧ h'.isAlive q.owner = false
  buffers : h'.buffers = h.buffers
  held : ∀ r ∈ h'.refs, h'.has r = true
  nexts : h'.vectors.next = h.vectors.next ∧ h'.strings.next = h.strings.next ∧
    h'.contexts.next = h.contexts.next ∧ h'.peers.next = h.peers.next
  supply : h'.supply = h.supply

variable {h h' : Heap}

theorem Sheds.isAlive (S : h.Sheds h') {o : Object} (alive : h'.isAlive o = true) :
    h.isAlive o = true := by
  cases o with
  | vector v =>
    obtain ⟨cell, found⟩ := (Store.contains_iff _ v).mp alive
    exact (Store.contains_iff _ v).mpr ⟨cell, S.vectors v cell found⟩
  | string s =>
    obtain ⟨cell, found⟩ := (Store.contains_iff _ s).mp alive
    exact (Store.contains_iff _ s).mpr ⟨cell, S.strings s cell found⟩

theorem Sheds.dead (S : h.Sheds h') {o : Object} (dead : h.isAlive o = false) :
    h'.isAlive o = false :=
  Bool.eq_false_iff.mpr (fun alive => absurd ((S.isAlive alive).symm.trans dead) (by decide))

theorem Sheds.peerOf (S : h.Sheds h') {o : Object} (alive : h'.isAlive o = true) :
    h'.peerOf? o = h.peerOf? o := by
  cases o with
  | vector v =>
    obtain ⟨cell, found⟩ := (Store.contains_iff _ v).mp alive
    rw [peerOf_vector found, peerOf_vector (S.vectors v cell found)]
  | string s =>
    obtain ⟨cell, found⟩ := (Store.contains_iff _ s).mp alive
    rw [peerOf_string found, peerOf_string (S.strings s cell found)]

theorem Sheds.contextOf (S : h.Sheds h') {o : Object} (alive : h'.isAlive o = true) :
    h'.contextOf? o = h.contextOf? o := by
  cases o with
  | vector v =>
    obtain ⟨cell, found⟩ := (Store.contains_iff _ v).mp alive
    rw [contextOf?, contextOf?, found, S.vectors v cell found]
  | string s =>
    obtain ⟨cell, found⟩ := (Store.contains_iff _ s).mp alive
    rw [contextOf?, contextOf?, found, S.strings s cell found]

theorem Sheds.peer_of_object (S : h.Sheds h') {o : Object} {p : PeerId} {q q' : Peer}
    (alive : h'.isAlive o = true) (owner : q.owner = o) (hq : h.peers.find? p = some q)
    (hq' : h'.peers.find? p = some q') : q' = q := by
  obtain ⟨q₀, hq₀, same | ⟨_, dead⟩⟩ := S.peers p q' hq'
  · cases hq.symm.trans hq₀
    exact same
  · cases hq.symm.trans hq₀
    rw [owner] at dead
    exact absurd (alive.symm.trans dead) (by decide)

theorem peerOf_held {o : Object} {p : PeerId} (pointer : h.peerOf? o = some p) :
    .peer p ∈ h.refs := by
  refine mem_refs_iff.mpr ?_
  cases o with
  | vector v =>
    obtain ⟨cell, found, hp⟩ := Option.bind_eq_some_iff.mp pointer
    exact .inl ⟨v, cell, found, mem_vector_refs.mpr (.inr (.inl ⟨p, hp, rfl⟩))⟩
  | string s =>
    obtain ⟨cell, found, hp⟩ := Option.bind_eq_some_iff.mp pointer
    exact .inr (.inl ⟨s, cell, found, mem_string_refs.mpr ⟨p, hp, rfl⟩⟩)

theorem Sheds.handleOf (I : h.Intact) (S : h.Sheds h') {o : Object} (alive : h'.isAlive o = true) :
    h'.handleOf o = h.handleOf o := by
  have pointer := S.peerOf alive
  refine handleOf_congr pointer (fun p hp => ?_)
  obtain ⟨q, hq, owner, _⟩ := I.peer_of_object hp
  obtain ⟨q', hq'⟩ := has_peer_iff.mp (S.held _ (peerOf_held (pointer.trans hp)))
  rw [hq', hq, S.peer_of_object alive owner hq hq']

theorem Sheds.vectorFormed (I : h.Intact) (S : h.Sheds h') {v : VectorId} {cell : VectorCell}
    (found : h'.vectors.find? v = some cell) : h'.VectorFormed v cell := by
  have F := I.vectors v cell (S.vectors v cell found)
  have alive : h'.isAlive (.vector v) = true := (Store.contains_iff _ v).mpr ⟨cell, found⟩
  have held : ∀ r ∈ cell.refs, h'.has r = true := fun r hr =>
    S.held r (mem_refs_iff.mpr (.inl ⟨v, cell, found, hr⟩))
  obtain ⟨ctx', hctx'⟩ := has_context_iff.mp (held _ (mem_vector_refs.mpr (.inl rfl)))
  obtain ⟨ctx, hctx, sentinel, switches, _⟩ := S.contexts _ ctx' hctx'
  have peers : ∀ i q, cell.peer = some i → h.peers.find? i = some q → h'.peers.find? i = some q := by
    intro i q hi hq
    obtain ⟨q', hq'⟩ := has_peer_iff.mp (held _ (mem_vector_refs.mpr (.inr (.inl ⟨i, hi, rfl⟩))))
    rw [hq', S.peer_of_object alive (F.peer i q hi hq).1 hq hq']
  refine F.transport ⟨held, peers, fun a ha => ?_, fun flipped => ?_, fun b _ => by rw [S.buffers],
    fun i q o hi hq ho _ => ?_⟩
  · rw [sentinelOf?, hctx, Option.bind_some] at ha
    rw [sentinelOf?, hctx', Option.bind_some, sentinel]
    exact ha
  · rw [Heap.isPromoted, hctx, Option.any_some] at flipped
    rw [Heap.isPromoted, hctx', Option.any_some, switches]
    exact flipped
  · have pinned : h'.has (.ofObject o) = true := S.held _ (mem_refs_iff.mpr (.inr (.inr (.inl
      ⟨i, q, peers i q hi hq, mem_peer_refs.mpr ⟨o, ho, rfl⟩⟩))))
    rw [has_ofObject] at pinned
    exact S.handleOf I pinned

theorem Sheds.stringFormed (I : h.Intact) (S : h.Sheds h') {s : StringId} {cell : StringCell}
    (found : h'.strings.find? s = some cell) : h'.StringFormed s cell := by
  have F := I.strings s cell (S.strings s cell found)
  have alive : h'.isAlive (.string s) = true := (Store.contains_iff _ s).mpr ⟨cell, found⟩
  have held : ∀ r ∈ cell.refs, h'.has r = true := fun r hr =>
    S.held r (mem_refs_iff.mpr (.inr (.inl ⟨s, cell, found, hr⟩)))
  refine F.transport held (Nat.le_of_eq S.nexts.2.2.1.symm) (fun i q hi hq => ?_)
  obtain ⟨q', hq'⟩ := has_peer_iff.mp (held _ (mem_string_refs.mpr ⟨i, hi, rfl⟩))
  rw [hq', S.peer_of_object alive (F.peer i q hi hq).1 hq hq']

theorem Sheds.contextFormed (I : h.Intact) (S : h.Sheds h') {c : ContextId} {ctx' : Context}
    (found : h'.contexts.find? c = some ctx') : h'.ContextFormed c ctx' := by
  obtain ⟨ctx, before, sentinel, switches, naString, counter, stride, entries, queue⟩ :=
    S.contexts c ctx' found
  have F := I.contexts c ctx before
  refine
    { refs := fun r hr =>
        S.held r (mem_refs_iff.mpr (.inr (.inr (.inr (.inl ⟨c, ctx', found, hr⟩)))))
      odd := counter ▸ F.odd
      even := stride ▸ F.even
      entry := fun k p q' entry hq' => ?_
      queued := fun p q' hp hq' => ?_
      sentinel := fun a ha => F.sentinel a (sentinel ▸ ha)
      naString := fun s cell hs hcell => F.naString s cell (naString ▸ hs) (S.strings s cell hcell) }
  · obtain ⟨q, hq, rfl | ⟨fades, _⟩⟩ := S.peers p q' hq'
    · exact F.entry k p q' (entries k p entry) hq
    · exact fades.handle.trans (F.entry k p q (entries k p entry) hq)
  · obtain ⟨q, hq, same⟩ := S.peers p q' hq'
    have owner : q'.owner = q.owner := same.elim (congrArg Peer.owner) (fun fades => fades.1.owner)
    rw [owner]
    rcases queue p hp with old | ⟨q₀, hq₀, dead⟩
    · exact S.dead (F.queued p q old hq)
    · cases hq.symm.trans hq₀
      exact dead

theorem Sheds.intact (I : h.Intact) (S : h.Sheds h') : h'.Intact where
  vectors _ _ found := S.vectorFormed I found
  strings _ _ found := S.stringFormed I found
  peers p q' found := by
    obtain ⟨q, hq, same⟩ := S.peers p q' found
    have F := I.peers p q hq
    have issued : h'.Issued q.owner := by
      have issued := F.issued
      cases ho : q.owner with
      | vector v => rw [ho] at issued; exact Nat.lt_of_lt_of_eq issued S.nexts.1.symm
      | string s => rw [ho] at issued; exact Nat.lt_of_lt_of_eq issued S.nexts.2.1.symm
    have held : ∀ r ∈ q'.refs, h'.has r = true := fun r hr =>
      S.held r (mem_refs_iff.mpr (.inr (.inr (.inl ⟨p, q', found, hr⟩))))
    rcases same with rfl | ⟨fades, _⟩
    · exact ⟨held, F.odd, issued⟩
    · exact ⟨held, by rw [fades.handle]; exact F.odd, by rw [fades.owner]; exact issued⟩
  contexts _ _ found := S.contextFormed I found
  frames f b name value found bound r hr :=
    S.held r (mem_refs_iff.mpr (.inr (.inr (.inr (.inr ⟨f, b, found, name, value, bound, hr⟩)))))
  buffers b foreign found := I.buffers b foreign (S.buffers ▸ found)

theorem Sheds.refl (I : h.Intact) : h.Sheds h where
  vectors _ _ := id
  strings _ _ := id
  frames _ _ := id
  peers _ q found := ⟨q, found, .inl rfl⟩
  contexts _ ctx found :=
    ⟨ctx, found, rfl, rfl, rfl, rfl, rfl, fun _ _ => id, fun _ hp => .inl hp⟩
  buffers := rfl
  held _ := I.has_of_mem_refs
  nexts := ⟨rfl, rfl, rfl, rfl⟩
  supply := rfl

theorem Sheds.trans {h'' : Heap} (S : h.Sheds h') (S' : h'.Sheds h'') : h.Sheds h'' where
  vectors v cell found := S.vectors v cell (S'.vectors v cell found)
  strings s cell found := S.strings s cell (S'.strings s cell found)
  frames f b found := S.frames f b (S'.frames f b found)
  peers p q'' found := by
    obtain ⟨q', hq', same'⟩ := S'.peers p q'' found
    obtain ⟨q, hq, same⟩ := S.peers p q' hq'
    refine ⟨q, hq, ?_⟩
    rcases same with rfl | ⟨fades, dead⟩
    · exact same'
    · rcases same' with rfl | ⟨fades', _⟩
      · exact .inr ⟨fades, S'.dead dead⟩
      · exact .inr ⟨fades.trans fades', S'.dead dead⟩
  contexts c ctx'' found := by
    obtain ⟨ctx', found', sentinel', switches', naString', counter', stride', entries', queue'⟩ :=
      S'.contexts c ctx'' found
    obtain ⟨ctx, before, sentinel, switches, naString, counter, stride, entries, queue⟩ :=
      S.contexts c ctx' found'
    refine ⟨ctx, before, sentinel'.trans sentinel, switches'.trans switches,
      naString'.trans naString, counter'.trans counter, stride'.trans stride,
      fun k p entry => entries k p (entries' k p entry), fun p hp => ?_⟩
    rcases queue' p hp with old | ⟨q', hq', dead⟩
    · exact (queue p old).imp id (fun ⟨q, hq, dead⟩ => ⟨q, hq, S'.dead dead⟩)
    · obtain ⟨q, hq, rfl | ⟨fades, _⟩⟩ := S.peers p q' hq'
      · exact .inr ⟨q', hq, dead⟩
      · exact .inr ⟨q, hq, fades.owner ▸ dead⟩
  buffers := S'.buffers.trans S.buffers
  held := S'.held
  nexts := ⟨S'.nexts.1.trans S.nexts.1, S'.nexts.2.1.trans S.nexts.2.1,
    S'.nexts.2.2.1.trans S.nexts.2.2.1, S'.nexts.2.2.2.trans S.nexts.2.2.2⟩
  supply := S'.supply.trans S.supply

/-! ### Objects go -/

theorem has_without {r r' : Ref} (other : r ≠ r') : (h.without r).has r' = h.has r' := by
  cases r with
  | context c =>
    cases r' with
    | context c' => exact h.contexts.contains_erase_ne (fun same => other (congrArg Ref.context same))
    | _ => rfl
  | vector v =>
    cases r' with
    | vector v' => exact h.vectors.contains_erase_ne (fun same => other (congrArg Ref.vector same))
    | _ => rfl
  | string s =>
    cases r' with
    | string s' => exact h.strings.contains_erase_ne (fun same => other (congrArg Ref.string same))
    | _ => rfl
  | frame f =>
    cases r' with
    | frame f' => exact h.frames.contains_erase_ne (fun same => other (congrArg Ref.frame same))
    | _ => rfl
  | peer p =>
    cases r' with
    | peer p' => exact h.peers.contains_erase_ne (fun same => other (congrArg Ref.peer same))
    | _ => rfl

theorem find_without (h : Heap) (r : Ref) :
    (∀ v cell, (h.without r).vectors.find? v = some cell → h.vectors.find? v = some cell) ∧
      (∀ s cell, (h.without r).strings.find? s = some cell → h.strings.find? s = some cell) ∧
      (∀ p q, (h.without r).peers.find? p = some q → h.peers.find? p = some q) ∧
      (∀ c ctx, (h.without r).contexts.find? c = some ctx → h.contexts.find? c = some ctx) ∧
      ∀ f b, (h.without r).frames.find? f = some b → h.frames.find? f = some b := by
  cases r with
  | context c => exact ⟨fun _ _ => id, fun _ _ => id, fun _ _ => id,
      fun _ _ found => (Store.find_of_find_erase found).1, fun _ _ => id⟩
  | vector v => exact ⟨fun _ _ found => (Store.find_of_find_erase found).1, fun _ _ => id,
      fun _ _ => id, fun _ _ => id, fun _ _ => id⟩
  | string s => exact ⟨fun _ _ => id, fun _ _ found => (Store.find_of_find_erase found).1,
      fun _ _ => id, fun _ _ => id, fun _ _ => id⟩
  | frame f => exact ⟨fun _ _ => id, fun _ _ => id, fun _ _ => id, fun _ _ => id,
      fun _ _ found => (Store.find_of_find_erase found).1⟩
  | peer p => exact ⟨fun _ _ => id, fun _ _ => id,
      fun _ _ found => (Store.find_of_find_erase found).1, fun _ _ => id, fun _ _ => id⟩

theorem objects_without (h : Heap) (r : Ref) :
    (∀ o c, (h.without r).contextOf? o = some c → h.contextOf? o = some c) ∧
      ∀ o p, (h.without r).peerOf? o = some p → h.peerOf? o = some p := by
  obtain ⟨vectors, strings, _⟩ := find_without h r
  constructor
  · intro o c own
    cases o with
    | vector v =>
      obtain ⟨cell, found, same⟩ := Option.map_eq_some_iff.mp own
      exact Option.map_eq_some_iff.mpr ⟨cell, vectors v cell found, same⟩
    | string s =>
      obtain ⟨cell, found, same⟩ := Option.map_eq_some_iff.mp own
      exact Option.map_eq_some_iff.mpr ⟨cell, strings s cell found, same⟩
  · intro o p pointer
    cases o with
    | vector v =>
      obtain ⟨cell, found, hp⟩ := Option.bind_eq_some_iff.mp pointer
      exact Option.bind_eq_some_iff.mpr ⟨cell, vectors v cell found, hp⟩
    | string s =>
      obtain ⟨cell, found, hp⟩ := Option.bind_eq_some_iff.mp pointer
      exact Option.bind_eq_some_iff.mpr ⟨cell, strings s cell found, hp⟩

theorem mem_refs_without {r r' : Ref} (held : r' ∈ (h.without r).refs) : r' ∈ h.refs := by
  obtain ⟨vectors, strings, peers, contexts, frames⟩ := find_without h r
  refine mem_refs_iff.mpr ?_
  rcases mem_refs_iff.mp held with ⟨v, cell, found, hr⟩ | ⟨s, cell, found, hr⟩ | ⟨p, q, found, hr⟩ |
    ⟨c, ctx, found, hr⟩ | ⟨f, b, found, rest⟩
  · exact .inl ⟨v, cell, vectors v cell found, hr⟩
  · exact .inr (.inl ⟨s, cell, strings s cell found, hr⟩)
  · exact .inr (.inr (.inl ⟨p, q, peers p q found, hr⟩))
  · exact .inr (.inr (.inr (.inl ⟨c, ctx, contexts c ctx found, hr⟩)))
  · exact .inr (.inr (.inr (.inr ⟨f, b, frames f b found, rest⟩)))

theorem without_sheds (I : h.Intact) {r : Ref} (unheld : r ∉ h.refs) : h.Sheds (h.without r) := by
  obtain ⟨vectors, strings, peers, contexts, frames⟩ := find_without h r
  refine
    { vectors, strings, frames
      peers := fun p q found => ⟨q, peers p q found, .inl rfl⟩
      contexts := fun c ctx found =>
        ⟨ctx, contexts c ctx found, rfl, rfl, rfl, rfl, rfl, fun _ _ => id, fun _ hp => .inl hp⟩
      buffers := by cases r <;> rfl
      held := fun r' held => ?_
      nexts := by cases r <;> exact ⟨rfl, rfl, rfl, rfl⟩
      supply := by cases r <;> rfl }
  have old := mem_refs_without held
  have other : r ≠ r' := by
    rintro rfl
    exact unheld old
  rw [has_without other]
  exact I.has_of_mem_refs old

/-! ### Releases -/

variable {c : ContextId} {p : PeerId}

/-- Nothing that is alive owns a peer. -/
def Ownerless (h : Heap) (p : PeerId) : Prop :=
  ∀ q, h.peers.find? p = some q → h.isAlive q.owner = false

theorem sheds_of_context (I : h.Intact) (c : ContextId) (f : Context → Context)
    (same : ∀ ctx, (f ctx).sentinel = ctx.sentinel ∧ (f ctx).switches = ctx.switches ∧
      (f ctx).naString = ctx.naString ∧ (f ctx).registry.counter = ctx.registry.counter ∧
      (f ctx).registry.stride = ctx.registry.stride)
    (entries : ∀ ctx k p, (f ctx).registry.peer? k = some p → ctx.registry.peer? k = some p)
    (queue : ∀ ctx p, h.contexts.find? c = some ctx → p ∈ (f ctx).reclaimer.queue →
      p ∈ ctx.reclaimer.queue ∨ h.has (.peer p) = true ∧ h.Ownerless p) :
    h.Sheds (h.modifyContext c f) := by
  have has : ∀ r, (h.modifyContext c f).has r = h.has r := by
    intro r
    cases r with
    | context c' =>
      exact isSome_eq_of_map_eq (h.contexts.map_find_modify c c' f (fun _ => ()) (fun _ _ => rfl))
    | _ => rfl
  have contexts : ∀ c' ctx', (h.modifyContext c f).contexts.find? c' = some ctx' →
      ∃ ctx, h.contexts.find? c' = some ctx ∧ (c = c' ∧ ctx' = f ctx ∨ ctx' = ctx) := by
    intro c' ctx' found
    by_cases e : c = c'
    · subst e
      rw [modifyContext, Store.find_modify_self] at found
      obtain ⟨ctx, before, rfl⟩ := Option.map_eq_some_iff.mp found
      exact ⟨ctx, before, .inl ⟨rfl, rfl⟩⟩
    · exact ⟨ctx', (h.contexts.find_modify_ne f e).symm.trans found, .inr rfl⟩
  refine
    { Sheds.refl I with
      contexts := fun c' ctx' found => ?_
      held := fun r held => ?_
      nexts := ⟨rfl, rfl, rfl, rfl⟩
      supply := rfl }
  · obtain ⟨ctx, before, ⟨rfl, rfl⟩ | rfl⟩ := contexts c' ctx' found
    · obtain ⟨sentinel, switches, naString, counter, stride⟩ := same ctx
      refine ⟨ctx, before, sentinel, switches, naString, counter, stride, entries ctx, fun p hp => ?_⟩
      refine (queue ctx p before hp).imp id (fun entry => ?_)
      obtain ⟨there, ownerless⟩ := entry
      obtain ⟨q, hq⟩ := has_peer_iff.mp there
      exact ⟨q, hq, ownerless q hq⟩
    · exact ⟨ctx', before, rfl, rfl, rfl, rfl, rfl, fun _ _ => id, fun _ hp => .inl hp⟩
  · rw [has]
    rcases mem_refs_iff.mp held with held | held | held | ⟨c', ctx', found, hr⟩ | held
    · exact I.has_of_mem_refs (mem_refs_iff.mpr (.inl held))
    · exact I.has_of_mem_refs (mem_refs_iff.mpr (.inr (.inl held)))
    · exact I.has_of_mem_refs (mem_refs_iff.mpr (.inr (.inr (.inl held))))
    · obtain ⟨ctx, before, ⟨rfl, rfl⟩ | rfl⟩ := contexts c' ctx' found
      · have F := I.contexts _ ctx before
        rcases mem_context_refs.mp hr with ⟨s, hs, rfl⟩ | ⟨k, p, hk, rfl⟩ | ⟨p, hp, rfl⟩
        · exact F.refs _ (mem_context_refs.mpr (.inl ⟨s, (same ctx).2.2.1 ▸ hs, rfl⟩))
        · exact F.refs _ (mem_context_refs.mpr (.inr (.inl ⟨k, p, entries ctx k p hk, rfl⟩)))
        · rcases queue ctx p before hp with old | ⟨there, _⟩
          · exact F.refs _ (mem_context_refs.mpr (.inr (.inr ⟨p, old, rfl⟩)))
          · exact there
      · exact (I.contexts c' ctx' before).refs r hr
    · exact I.has_of_mem_refs (mem_refs_iff.mpr (.inr (.inr (.inr (.inr held)))))

theorem faded_sheds (I : h.Intact) (ownerless : h.Ownerless p) {f : Peer → Peer}
    (fades : ∀ q : Peer, q.Fades (f q)) : h.Sheds (h.modifyPeer p f) := by
  have has : ∀ r, (h.modifyPeer p f).has r = h.has r := by
    intro r
    cases r with
    | peer i =>
      exact isSome_eq_of_map_eq (h.peers.map_find_modify p i _ (fun _ => ()) (fun _ _ => rfl))
    | _ => rfl
  have peers : ∀ i q', (h.modifyPeer p f).peers.find? i = some q' →
      ∃ q, h.peers.find? i = some q ∧ (q' = q ∨ (i = p ∧ q' = f q)) := by
    intro i q' found
    by_cases e : p = i
    · subst e
      rw [modifyPeer, Store.find_modify_self] at found
      obtain ⟨q, before, rfl⟩ := Option.map_eq_some_iff.mp found
      exact ⟨q, before, .inr ⟨rfl, rfl⟩⟩
    · exact ⟨q', (h.peers.find_modify_ne _ e).symm.trans found, .inl rfl⟩
  refine
    { Sheds.refl I with
      peers := fun i q' found => ?_
      contexts := fun c ctx found =>
        ⟨ctx, found, rfl, rfl, rfl, rfl, rfl, fun _ _ => id, fun _ hp => .inl hp⟩
      held := fun r held => ?_
      nexts := ⟨rfl, rfl, rfl, rfl⟩
      supply := rfl }
  · obtain ⟨q, hq, rfl | ⟨rfl, rfl⟩⟩ := peers i q' found
    · exact ⟨q', hq, .inl rfl⟩
    · refine ⟨q, hq, .inr ⟨fades q, ?_⟩⟩
      have dead := ownerless q hq
      cases ho : q.owner <;> rw [ho] at dead <;> exact dead
  · rw [has]
    rcases mem_refs_iff.mp held with held | held | ⟨i, q', found, hr⟩ | held
    · exact I.has_of_mem_refs (mem_refs_iff.mpr (.inl held))
    · exact I.has_of_mem_refs (mem_refs_iff.mpr (.inr (.inl held)))
    · obtain ⟨q, hq, rfl | ⟨rfl, rfl⟩⟩ := peers i q' found
      · exact (I.peers i q' hq).refs r hr
      · rcases (fades q).pins with kept | dropped
        · exact (I.peers i q hq).refs r (by rw [Peer.refs, ← kept]; exact hr)
        · exact absurd hr (by simp [Peer.refs, dropped])
    · exact I.has_of_mem_refs (mem_refs_iff.mpr (.inr (.inr (.inr held))))

theorem remove_rest (r : Registry) (k : Handle) (p : PeerId) :
    (r.remove k p).counter = r.counter ∧ (r.remove k p).stride = r.stride ∧
      (r.remove k p).registered = r.registered := by
  unfold Registry.remove
  split <;> exact ⟨rfl, rfl, rfl⟩

theorem byAddress_remove (r : Registry) (k : Handle) (p : PeerId) :
    (r.remove k p).byAddress = r.byAddress := by
  unfold Registry.remove
  split <;> rfl

theorem peer_remove_iff {r : Registry} {k k' : Handle} {p i : PeerId} :
    (r.remove k p).peer? k' = some i ↔ r.peer? k' = some i ∧ ¬ (k' = k ∧ r.peer? k = some p) := by
  unfold Registry.remove Registry.peer?
  split
  · rename_i entry
    rw [show ((r.delist k).forgetSite k).peers = r.peers.erase k from rfl, Table.find_erase]
    by_cases same : k = k'
    · subst same
      simp [entry]
    · simp [same, Ne.symm same]
  · rename_i other
    simp [other]

theorem peer_remove {r : Registry} {k k' : Handle} {p i : PeerId}
    (entry : (r.remove k p).peer? k' = some i) : r.peer? k' = some i :=
  (peer_remove_iff.mp entry).1

theorem find_mark {q : Peer} (hq : h.peers.find? p = some q) :
    (h.mark p).peers.find? p = some { q with released := true } :=
  (h.peers.find_modify_self p _).trans (congrArg (Option.map _) hq)

theorem release_eq {q : Peer} (hq : h.peers.find? p = some q) (c : ContextId) :
    h.release c p = if q.released then (h, false) else
      ((h.modifyRegistry c (fun r => (r.remove q.handle p).dropContents q.backing)).modifyPeer p
        Peer.emptied, true) := by
  have unwound : (h.mark p).unwind c p =
      (h.modifyRegistry c (fun r => (r.remove q.handle p).dropContents q.backing)).modifyPeer p
        Peer.emptied := by
    rw [unwind, find_mark hq]
    simp only [unpin, free, mark, modifyRegistry, modifyPeer, modifyContext, Store.modify_modify]
    rfl
  rw [release, hq, ← unwound]

theorem release_sheds (I : h.Intact) (c : ContextId) (ownerless : h.Ownerless p) :
    h.Sheds (h.release c p).1 := by
  cases hq : h.peers.find? p with
  | none =>
    unfold release
    rw [hq]
    exact .refl I
  | some q =>
    rw [release_eq hq]
    split
    · exact .refl I
    · have S : h.Sheds (h.modifyRegistry c
          (fun r => (r.remove q.handle p).dropContents q.backing)) := by
        refine sheds_of_context I c _ (fun ctx => ?_) (fun ctx k i entry => ?_) (fun _ _ _ => .inl)
        · obtain ⟨_, counter, stride, _⟩ :=
            accounts_dropContents (ctx.registry.remove q.handle p) q.backing
          obtain ⟨counter', stride', _⟩ := remove_rest ctx.registry q.handle p
          exact ⟨rfl, rfl, rfl, counter.trans counter', stride.trans stride'⟩
        · obtain ⟨peers, _⟩ := accounts_dropContents (ctx.registry.remove q.handle p) q.backing
          refine peer_remove (k := q.handle) (p := p) ?_
          exact (congrArg (·.find? k) peers).symm.trans entry
      refine S.trans (faded_sheds (S.intact I) (fun q' hq' => ?_) Peer.fades_emptied)
      cases hq.symm.trans hq'
      have dead := ownerless q hq
      cases ho : q.owner <;> rw [ho] at dead <;> exact dead

theorem modifyReclaimer_sheds (I : h.Intact) (c : ContextId) (f : Reclaimer → Reclaimer)
    (queue : ∀ ctx i, h.contexts.find? c = some ctx → i ∈ (f ctx.reclaimer).queue →
      i ∈ ctx.reclaimer.queue ∨ h.has (.peer i) = true ∧ h.Ownerless i) :
    h.Sheds (h.modifyReclaimer c f) :=
  sheds_of_context I c _ (fun _ => ⟨rfl, rfl, rfl, rfl, rfl⟩) (fun _ _ _ => id) queue

theorem finishPeer_sheds (I : h.Intact) (c : ContextId) (ownerless : h.Ownerless p) :
    h.Sheds (h.finishPeer c p) := by
  have S := release_sheds I c ownerless
  have last := modifyReclaimer_sheds (S.intact I) c (·.finish (h.release c p).2)
    (fun _ _ _ => .inl)
  exact S.trans last

theorem Ownerless.later (O : h.Ownerless p) (S : h.Sheds h') : h'.Ownerless p := by
  intro q' hq'
  obtain ⟨q, hq, rfl | ⟨fades, dead⟩⟩ := S.peers p q' hq'
  · exact S.dead (O q' hq)
  · exact fades.owner ▸ dead

/-! ### Handing in and burying -/

theorem start_ok {r r' : Reclaimer} (started : r.start = .ok r') :
    ∃ running, r' = { r with running } := by
  unfold Reclaimer.start at started
  split at started
  · cases started
    exact ⟨r.running, rfl⟩
  · dsimp only at started
    split at started
    · exact absurd started (by simp)
    · cases started
      exact ⟨true, rfl⟩

theorem dispatch_cases (r : Reclaimer) (p : PeerId) :
    (∃ panic, r.dispatch? p = .error panic) ∨ r.dispatch? p = .ok none ∨
      ∃ running, r.dispatch? p = .ok (some { r with running, queue := r.queue ++ [p] }) := by
  unfold Reclaimer.dispatch?
  cases started : r.start with
  | error panic => exact .inl ⟨panic, rfl⟩
  | ok r' =>
    obtain ⟨running, rfl⟩ := start_ok started
    cases running with
    | false => exact .inr (.inl rfl)
    | true => exact .inr (.inr ⟨true, rfl⟩)

/-- What handing in a peer comes to: it is queued, or it comes back, or a panic leaves it as it is. It
is counted in any case. -/
theorem handIn_cases (h : Heap) (c : ContextId) (p : PeerId) :
    (∃ running, h.handIn c p = ((h.modifyReclaimer c (·.count)).modifyReclaimer c
      (fun r => { r with running, queue := r.queue ++ [p] }), false)) ∨
    h.handIn c p = (h.modifyReclaimer c (·.count), true) ∨
    ∃ panic, h.handIn c p =
      ({ h.modifyReclaimer c (·.count) with panics := h.panics ++ [panic] }, false) := by
  unfold handIn
  dsimp only
  cases found : (h.modifyReclaimer c (·.count)).contexts.find? c with
  | none => exact .inr (.inl rfl)
  | some ctx =>
    rcases dispatch_cases ctx.reclaimer p with ⟨panic, refused⟩ | direct | ⟨running, queued⟩
    · refine .inr (.inr ⟨panic, ?_⟩)
      simp only [Option.map_some, refused]
      rfl
    · refine .inr (.inl ?_)
      simp only [Option.map_some, direct]
    · refine .inl ⟨running, ?_⟩
      simp only [Option.map_some, queued]
      refine congrArg (fun contexts => ({ h with contexts }, false)) ?_
      refine Store.modify_congr _ c (fun a ha => ?_)
      cases found.symm.trans ha
      rfl

theorem reclaim_cases (h : Heap) (c : ContextId) (p : PeerId) :
    (∃ running, h.reclaim c p = (h.modifyReclaimer c (·.count)).modifyReclaimer c
      (fun r => { r with running, queue := r.queue ++ [p] })) ∨
    h.reclaim c p = (h.modifyReclaimer c (·.count)).finishPeer c p ∨
    ∃ panic, h.reclaim c p = { h.modifyReclaimer c (·.count) with panics := h.panics ++ [panic] } := by
  unfold reclaim
  rcases handIn_cases h c p with ⟨running, queued⟩ | back | ⟨panic, stuck⟩
  · exact .inl ⟨running, by rw [queued]; rfl⟩
  · exact .inr (.inl (by rw [back]; rfl))
  · exact .inr (.inr ⟨panic, by rw [stuck]; rfl⟩)

theorem Sheds.noting (S : h.Sheds h') (panics : List Panic) : h.Sheds { h' with panics } :=
  ⟨S.vectors, S.strings, S.frames, S.peers, S.contexts, S.buffers, S.held, S.nexts, S.supply⟩

theorem handIn_sheds (I : h.Intact) (c : ContextId) (there : h.has (.peer p) = true)
    (ownerless : h.Ownerless p) : h.Sheds (h.handIn c p).1 := by
  have counted : h.Sheds (h.modifyReclaimer c (·.count)) :=
    modifyReclaimer_sheds I c _ (fun _ _ _ => .inl)
  rcases handIn_cases h c p with ⟨running, queued⟩ | back | ⟨panic, stuck⟩
  · rw [queued]
    refine counted.trans (modifyReclaimer_sheds (counted.intact I) c
      (fun r => { r with running, queue := r.queue ++ [p] }) (fun ctx i _ hi => ?_))
    rcases List.mem_append.mp hi with old | new
    · exact .inl old
    · cases List.mem_singleton.mp new
      exact .inr ⟨there, ownerless.later counted⟩
  · rw [back]
    exact counted
  · rw [stuck]
    exact counted.noting _

theorem reclaim_sheds (I : h.Intact) (c : ContextId) (there : h.has (.peer p) = true)
    (ownerless : h.Ownerless p) : h.Sheds (h.reclaim c p) := by
  have handed := handIn_sheds I c there ownerless
  unfold reclaim
  dsimp only
  split
  · exact handed.trans (finishPeer_sheds (handed.intact I) c (ownerless.later handed))
  · exact handed

theorem legacy_eq_some_iff (I : h.Intact) {r : Ref} : h.legacy? r = some (c, p) ↔
    ∃ o, r = .ofObject o ∧ h.contextOf? o = some c ∧ h.has (.context c) = true ∧
      h.peerOf? o = some p := by
  cases r with
  | vector v =>
    refine ⟨fun left => ?_, ?_⟩
    · obtain ⟨cell, found, left⟩ := Option.bind_eq_some_iff.mp left
      obtain ⟨p, hp, same⟩ := Option.map_eq_some_iff.mp left
      cases same
      refine ⟨.vector v, rfl, ?_, has_context_iff.mpr (I.context_of_vector found),
        (peerOf_vector found).trans hp⟩
      rw [contextOf?, found, Option.map_some]
    · rintro ⟨o, e, own, _, pointer⟩
      cases o <;> cases e
      obtain ⟨cell, found, rfl⟩ := Option.map_eq_some_iff.mp own
      rw [peerOf_vector found] at pointer
      rw [legacy?, found, Option.bind_some, pointer, Option.map_some]
  | string s =>
    refine ⟨fun left => ?_, ?_⟩
    · obtain ⟨left, there⟩ := Option.filter_eq_some_iff.mp left
      obtain ⟨cell, found, left⟩ := Option.bind_eq_some_iff.mp left
      obtain ⟨p, hp, same⟩ := Option.map_eq_some_iff.mp left
      cases same
      refine ⟨.string s, rfl, ?_, there, (peerOf_string found).trans hp⟩
      rw [contextOf?, found, Option.map_some]
    · rintro ⟨o, e, own, there, pointer⟩
      cases o <;> cases e
      obtain ⟨cell, found, rfl⟩ := Option.map_eq_some_iff.mp own
      rw [peerOf_string found] at pointer
      refine Option.filter_eq_some_iff.mpr ⟨?_, there⟩
      rw [found, Option.bind_some, pointer, Option.map_some]
  | _ =>
    refine iff_of_false (by simp [legacy?]) ?_
    rintro ⟨o, e, _⟩
    cases o <;> cases e

/-- What a burial comes to: an object with a peer in a context that is there has it handed in. -/
theorem bury_cases (I : h.Intact) (r : Ref) :
    (h.bury r = h.without r ∧ ∀ o c, r = .ofObject o → h.contextOf? o = some c →
      h.has (.context c) = true → h.peerOf? o = none) ∨
    ∃ o c p, r = .ofObject o ∧ h.contextOf? o = some c ∧ h.has (.context c) = true ∧
      h.peerOf? o = some p ∧ h.bury r = (h.without r).reclaim c p := by
  unfold bury
  cases left : h.legacy? r with
  | none =>
    refine .inl ⟨rfl, fun o c e own there => Option.eq_none_iff_forall_ne_some.mpr (fun p pointer => ?_)⟩
    exact absurd (left.symm.trans ((legacy_eq_some_iff I).mpr ⟨o, e, own, there, pointer⟩)) (by simp)
  | some cp =>
    obtain ⟨o, e, own, there, pointer⟩ := (legacy_eq_some_iff I).mp left
    exact .inr ⟨o, cp.1, cp.2, e, own, there, pointer, rfl⟩

theorem bury_sheds (I : h.Intact) {r : Ref} (unheld : r ∉ h.refs) : h.Sheds (h.bury r) := by
  have gone := without_sheds I unheld
  rcases bury_cases I r with ⟨plain, _⟩ | ⟨o, c, p, rfl, _, _, pointer, handed⟩
  · rw [plain]
    exact gone
  · obtain ⟨q, hq, owner, _⟩ := I.peer_of_object pointer
    have there : (h.without (.ofObject o)).peers.find? p = h.peers.find? p := by cases o <;> rfl
    rw [handed]
    refine gone.trans (reclaim_sheds (gone.intact I) c (has_peer_iff.mpr ⟨q, there.trans hq⟩)
      (fun q' hq' => ?_))
    cases (there.trans hq).symm.trans hq'
    rw [owner]
    cases o with
    | vector v => exact Store.contains_erase_self h.vectors v
    | string s => exact Store.contains_erase_self h.strings s

theorem dequeue_some {r r' : Reclaimer} (next : r.dequeue? = some (p, r')) :
    ∃ rest, r.queue = p :: rest ∧ r' = { r with queue := rest } := by
  unfold Reclaimer.dequeue? at next
  split at next
  · exact absurd next (by simp)
  · rename_i queue
    cases next
    exact ⟨_, queue, rfl⟩

theorem work_cases (h : Heap) (c : ContextId) :
    h.work c = h ∨ ∃ ctx p rest, h.contexts.find? c = some ctx ∧ ctx.reclaimer.queue = p :: rest ∧
      h.work c =
        (h.modifyReclaimer c (fun _ => { ctx.reclaimer with queue := rest })).finishPeer c p := by
  unfold work
  cases next : (h.contexts.find? c).bind (fun ctx => ctx.reclaimer.dequeue?) with
  | none => exact .inl rfl
  | some pr =>
    obtain ⟨p, r⟩ := pr
    obtain ⟨ctx, found, taken⟩ := Option.bind_eq_some_iff.mp next
    obtain ⟨rest, queue, rfl⟩ := dequeue_some taken
    exact .inr ⟨ctx, p, rest, found, queue, rfl⟩

theorem dequeued_sheds (I : h.Intact) {ctx : Context} {rest : List PeerId}
    (found : h.contexts.find? c = some ctx) (queue : ctx.reclaimer.queue = p :: rest) :
    h.Sheds (h.modifyReclaimer c (fun _ => { ctx.reclaimer with queue := rest })) := by
  refine modifyReclaimer_sheds I c _ (fun ctx' i found' hi => ?_)
  cases found.symm.trans found'
  exact .inl (queue ▸ List.mem_cons_of_mem _ hi)

theorem work_sheds (I : h.Intact) (c : ContextId) : h.Sheds (h.work c) := by
  rcases work_cases h c with idle | ⟨ctx, p, rest, found, queue, run⟩
  · rw [idle]
    exact .refl I
  · have waiting : p ∈ ctx.reclaimer.queue := queue ▸ List.mem_cons_self
    have S := dequeued_sheds I found queue
    have ownerless : h.Ownerless p := fun q hq => (I.contexts c ctx found).queued p q waiting hq
    rw [run]
    exact S.trans (finishPeer_sheds (S.intact I) c (ownerless.later S))

theorem shutdown_sheds (I : h.Intact) (c : ContextId) : h.Sheds (h.shutdown c) :=
  modifyReclaimer_sheds I c _ (fun _ _ _ => .inl)

end Heap
end VectorHeap
