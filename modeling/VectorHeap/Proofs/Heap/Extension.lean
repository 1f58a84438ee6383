import VectorHeap.Proofs.Heap.Revision

/-! Extensions: new objects beside the old ones.
An extension removes nothing and changes no old object but to give it its peer. So what an old object
shows stays as it was, and a heap stays intact if the new objects are formed. -/
namespace VectorHeap.Heap

structure Extends (h h' : Heap) : Prop where
  vectors : ∀ w cell, h.vectors.find? w = some cell →
    ∃ p, h'.vectors.find? w = some { cell with peer := p } ∧ ∀ i, cell.peer = some i → p = some i
  strings : ∀ s cell, h.strings.find? s = some cell →
    ∃ p, h'.strings.find? s = some { cell with peer := p } ∧ ∀ i, cell.peer = some i → p = some i
  peers : ∀ i q, h.peers.find? i = some q → h'.peers.find? i = some q
  buffers : ∀ b foreign, h.buffers.find? b = some foreign → h'.buffers.find? b = some foreign
  contexts : ∀ c ctx, h.contexts.find? c = some ctx → ∃ ctx', h'.contexts.find? c = some ctx' ∧
    ctx'.sentinel = ctx.sentinel ∧ ctx'.switches = ctx.switches ∧ ctx'.reclaimer = ctx.reclaimer ∧
    ∀ s, ctx.naString = some s → ctx'.naString = some s
  frames : ∀ f b, h.frames.find? f = some b → h'.frames.find? f = some b
  nexts : h.vectors.next ≤ h'.vectors.next ∧ h.strings.next ≤ h'.strings.next ∧
    h.contexts.next ≤ h'.contexts.next
  /-- No dead object comes back. -/
  revived : ∀ o, h.Issued o → h'.isAlive o = true → h.isAlive o = true

variable {h h' h'' : Heap}

theorem Extends.refl (h : Heap) : h.Extends h where
  vectors _ cell found := ⟨cell.peer, found, fun _ => id⟩
  strings _ cell found := ⟨cell.peer, found, fun _ => id⟩
  peers _ _ := id
  buffers _ _ := id
  contexts _ ctx found := ⟨ctx, found, rfl, rfl, rfl, fun _ => id⟩
  frames _ _ := id
  nexts := ⟨Nat.le_refl _, Nat.le_refl _, Nat.le_refl _⟩
  revived _ _ := id

theorem Extends.issued (E : h.Extends h') {o : Object} (issued : h.Issued o) : h'.Issued o := by
  cases o with
  | vector v => exact Nat.lt_of_lt_of_le issued E.nexts.1
  | string s => exact Nat.lt_of_lt_of_le issued E.nexts.2.1

theorem Extends.trans (E : h.Extends h') (E' : h'.Extends h'') : h.Extends h'' where
  vectors w cell found := by
    obtain ⟨p, found', kept⟩ := E.vectors w cell found
    obtain ⟨p', found'', kept'⟩ := E'.vectors w _ found'
    exact ⟨p', found'', fun i hi => kept' i (kept i hi)⟩
  strings s cell found := by
    obtain ⟨p, found', kept⟩ := E.strings s cell found
    obtain ⟨p', found'', kept'⟩ := E'.strings s _ found'
    exact ⟨p', found'', fun i hi => kept' i (kept i hi)⟩
  peers i q found := E'.peers i q (E.peers i q found)
  buffers b foreign found := E'.buffers b foreign (E.buffers b foreign found)
  contexts c ctx found := by
    obtain ⟨ctx', found', sentinel, switches, reclaimer, naString⟩ := E.contexts c ctx found
    obtain ⟨ctx'', found'', sentinel', switches', reclaimer', naString'⟩ :=
      E'.contexts c ctx' found'
    exact ⟨ctx'', found'', sentinel'.trans sentinel, switches'.trans switches,
      reclaimer'.trans reclaimer, fun s hs => naString' s (naString s hs)⟩
  frames f b found := E'.frames f b (E.frames f b found)
  nexts := ⟨Nat.le_trans E.nexts.1 E'.nexts.1, Nat.le_trans E.nexts.2.1 E'.nexts.2.1,
    Nat.le_trans E.nexts.2.2 E'.nexts.2.2⟩
  revived o issued alive := E.revived o issued (E'.revived o (E.issued issued) alive)

/-! ### What old objects show -/

theorem Extends.has (E : h.Extends h') {r : Ref} (alive : h.has r = true) : h'.has r = true := by
  cases r with
  | context c =>
    obtain ⟨ctx, found⟩ := has_context_iff.mp alive
    obtain ⟨ctx', found', _⟩ := E.contexts c ctx found
    exact has_context_iff.mpr ⟨ctx', found'⟩
  | vector w =>
    obtain ⟨cell, found⟩ := has_vector_iff.mp alive
    obtain ⟨p, found', _⟩ := E.vectors w cell found
    exact has_vector_iff.mpr ⟨_, found'⟩
  | string s =>
    obtain ⟨cell, found⟩ := has_string_iff.mp alive
    obtain ⟨p, found', _⟩ := E.strings s cell found
    exact has_string_iff.mpr ⟨_, found'⟩
  | frame f =>
    obtain ⟨b, found⟩ := has_frame_iff.mp alive
    exact has_frame_iff.mpr ⟨b, E.frames f b found⟩
  | peer i =>
    obtain ⟨q, found⟩ := has_peer_iff.mp alive
    exact has_peer_iff.mpr ⟨q, E.peers i q found⟩

theorem Extends.peerOf (E : h.Extends h') {o : Object} {i : PeerId} (hi : h.peerOf? o = some i) :
    h'.peerOf? o = some i := by
  cases o with
  | vector w =>
    obtain ⟨cell, found, pointer⟩ := Option.bind_eq_some_iff.mp hi
    obtain ⟨p, found', kept⟩ := E.vectors w cell found
    exact Option.bind_eq_some_iff.mpr ⟨_, found', kept i pointer⟩
  | string s =>
    obtain ⟨cell, found, pointer⟩ := Option.bind_eq_some_iff.mp hi
    obtain ⟨p, found', kept⟩ := E.strings s cell found
    exact Option.bind_eq_some_iff.mpr ⟨_, found', kept i pointer⟩

theorem Extends.contextOf (E : h.Extends h') {o : Object} {c : ContextId}
    (hc : h.contextOf? o = some c) : h'.contextOf? o = some c := by
  cases o with
  | vector w =>
    obtain ⟨cell, found, rfl⟩ := Option.map_eq_some_iff.mp hc
    obtain ⟨p, found', _⟩ := E.vectors w cell found
    exact Option.map_eq_some_iff.mpr ⟨_, found', rfl⟩
  | string s =>
    obtain ⟨cell, found, rfl⟩ := Option.map_eq_some_iff.mp hc
    obtain ⟨p, found', _⟩ := E.strings s cell found
    exact Option.map_eq_some_iff.mpr ⟨_, found', rfl⟩

theorem Extends.handleOf (E : h.Extends h') {o : Object} (named : (h.handleOf o).isSome = true) :
    h'.handleOf o = h.handleOf o := by
  obtain ⟨i, q, hi, hq, handle⟩ := peerOf_of_handleOf named
  rw [handle]
  exact handleOf_eq (E.peerOf hi) (E.peers i q hq)

theorem Extends.sentinelOf (E : h.Extends h') {c : ContextId} {a : Address}
    (found : h.sentinelOf? c = some a) : h'.sentinelOf? c = some a := by
  obtain ⟨ctx, hctx, ha⟩ := Option.bind_eq_some_iff.mp found
  obtain ⟨ctx', hctx', sentinel, _⟩ := E.contexts c ctx hctx
  exact Option.bind_eq_some_iff.mpr ⟨ctx', hctx', sentinel.trans ha⟩

theorem Extends.isPromoted (E : h.Extends h') {c : ContextId} {t : ElemType}
    (flipped : h.isPromoted c t = true) : h'.isPromoted c t = true := by
  obtain ⟨ctx, hctx, ht⟩ := (Option.any_eq_true _ _).mp flipped
  obtain ⟨ctx', hctx', _, switches, _⟩ := E.contexts c ctx hctx
  exact (Option.any_eq_true _ _).mpr ⟨ctx', hctx', by rw [switches]; exact ht⟩

theorem Extends.bufferExtent (E : h.Extends h') (b : BufferId)
    (there : (h.buffers.find? b).isSome = true) :
    (h'.buffers.find? b).map ForeignBuffer.extent = (h.buffers.find? b).map ForeignBuffer.extent := by
  obtain ⟨foreign, found⟩ := Option.isSome_iff_exists.mp there
  rw [found, E.buffers b foreign found]

/-! ### Staying formed -/

theorem Extends.supports (E : h.Extends h') (cell : VectorCell)
    (refs : ∀ r ∈ cell.refs, h.has r = true) : h.Supports h' cell where
  refs r hr := E.has (refs r hr)
  peers i q _ hq := E.peers i q hq
  sentinels _ := E.sentinelOf
  switches := E.isPromoted
  buffers := E.bufferExtent
  handles _ _ _ _ _ _ := E.handleOf

def NewPeer (h : Heap) (o : Object) (i : PeerId) : Prop :=
  ∃ q, h.peers.find? i = some q ∧ q.owner = o ∧ q.released = false ∧ q.backing = .unallocated ∧
    q.pins = []

theorem Extends.vectorFormed (I : h.Intact) (E : h.Extends h') {w : VectorId} {cell : VectorCell}
    (found : h.vectors.find? w = some cell) {p : Option PeerId}
    (kept : ∀ i, cell.peer = some i → p = some i)
    (pointed : ∀ i, cell.peer = none → p = some i → h'.NewPeer (.vector w) i) :
    h'.VectorFormed w { cell with peer := p } := by
  have F := I.vectors w cell found
  cases hp : cell.peer with
  | some i =>
    have same : { cell with peer := p } = cell := by rw [kept i hp, ← hp]
    rw [same]
    exact F.transport (E.supports cell F.refs)
  | none =>
    have promoted : cell.buffer ≠ none := fun bare => by
      obtain ⟨i, q, hi, _⟩ := F.native bare
      exact absurd (hp.symm.trans hi) (by simp)
    refine
      { refs := fun r hr => ?_, window := F.window, peer := fun i q hi hq => ?_,
        managed := fun b hb => ?_, native := fun bare => absurd bare promoted }
    · rcases mem_vector_refs.mp hr with rfl | ⟨i, hi, rfl⟩ | ⟨b, hb, hr⟩
      · exact E.has (F.refs _ (mem_vector_refs.mpr (.inl rfl)))
      · obtain ⟨q, hq, _⟩ := pointed i hp hi
        exact has_peer_iff.mpr ⟨q, hq⟩
      · exact E.has (F.refs r (mem_vector_refs.mpr (.inr (.inr ⟨b, hb, hr⟩))))
    · obtain ⟨q', hq', owner, released, _⟩ := pointed i hp hi
      cases hq'.symm.trans hq
      exact ⟨owner, released⟩
    · refine ⟨(F.managed b hb).type, (F.managed b hb).capacity, fun i q hi hq => ?_⟩
      obtain ⟨q', hq', _, _, backing, pins⟩ := pointed i hp hi
      cases hq'.symm.trans hq
      exact ⟨backing, pins⟩

theorem Extends.stringFormed (I : h.Intact) (E : h.Extends h') {s : StringId} {cell : StringCell}
    (found : h.strings.find? s = some cell) {p : Option PeerId}
    (kept : ∀ i, cell.peer = some i → p = some i)
    (pointed : ∀ i, cell.peer = none → p = some i → h'.NewPeer (.string s) i) :
    h'.StringFormed s { cell with peer := p } := by
  have F := I.strings s cell found
  cases hp : cell.peer with
  | some i =>
    have same : { cell with peer := p } = cell := by rw [kept i hp, ← hp]
    rw [same]
    exact F.transport (fun r hr => E.has (F.refs r hr)) E.nexts.2.2 (fun i q _ => E.peers i q)
  | none =>
    refine ⟨fun r hr => ?_, Nat.lt_of_lt_of_le F.issued E.nexts.2.2, fun i q hi hq => ?_⟩
    · obtain ⟨i, hi, rfl⟩ := mem_string_refs.mp hr
      obtain ⟨q, hq, _⟩ := pointed i hp hi
      exact has_peer_iff.mpr ⟨q, hq⟩
    · obtain ⟨q', hq', owner, released, backing, pins⟩ := pointed i hp hi
      cases hq'.symm.trans hq
      exact ⟨owner, released, pins, .inl backing⟩

theorem PeerFormed.extend (E : h.Extends h') {q : Peer} (F : h.PeerFormed q) : h'.PeerFormed q where
  refs r hr := E.has (F.refs r hr)
  odd := F.odd
  issued := E.issued F.issued

theorem Extends.contextFormed (I : h.Intact) (E : h.Extends h') {c : ContextId} {ctx ctx' : Context}
    (found : h.contexts.find? c = some ctx) (same : ctx'.accounts = ctx.accounts)
    (sentinel : ctx'.sentinel = ctx.sentinel) : h'.ContextFormed c ctx' := by
  have F := I.contexts c ctx found
  have peers : ctx'.registry.peers = ctx.registry.peers := congrArg Accounts.peers same
  have queue : ctx'.reclaimer.queue = ctx.reclaimer.queue := congrArg (·.reclaimer.queue) same
  have naString : ctx'.naString = ctx.naString := congrArg Accounts.naString same
  refine
    { refs := fun r hr => E.has (F.refs r (refs_of_accounts same ▸ hr))
      odd := by rw [show ctx'.registry.counter = _ from congrArg Accounts.counter same]; exact F.odd
      even := by rw [show ctx'.registry.stride = _ from congrArg Accounts.stride same]; exact F.even
      entry := ?_, queued := ?_, sentinel := fun a ha => F.sentinel a (sentinel ▸ ha), naString := ?_ }
  · intro k i q' entry hq'
    rw [Registry.peer?, peers] at entry
    obtain ⟨q, hq⟩ :=
      has_peer_iff.mp (F.refs _ (mem_context_refs.mpr (.inr (.inl ⟨k, i, entry, rfl⟩))))
    cases (E.peers i q hq).symm.trans hq'
    exact F.entry k i q' entry hq
  · intro i q' hi hq'
    rw [queue] at hi
    obtain ⟨q, hq⟩ :=
      has_peer_iff.mp (F.refs _ (mem_context_refs.mpr (.inr (.inr ⟨i, hi, rfl⟩))))
    cases (E.peers i q hq).symm.trans hq'
    refine Bool.eq_false_iff.mpr (fun alive => ?_)
    have dead := F.queued i q' hi hq
    rw [E.revived _ (I.peers i q' hq).issued alive] at dead
    exact absurd dead (by decide)
  · intro s cell' hs hcell'
    rw [naString] at hs
    obtain ⟨cell, hcell⟩ :=
      has_string_iff.mp (F.refs _ (mem_context_refs.mpr (.inl ⟨s, hs, rfl⟩)))
    obtain ⟨p, found', _⟩ := E.strings s cell hcell
    cases found'.symm.trans hcell'
    exact F.naString s cell hs hcell

/-- What an extension adds is formed. A clause left out is one under which nothing is added. -/
structure AddsFormed (h h' : Heap) : Prop where
  vectors : ∀ w cell', h'.vectors.find? w = some cell' → h.vectors.find? w = none →
      h'.VectorFormed w cell' := by
    exact fun _ _ found none => absurd (found.symm.trans none) (by simp)
  strings : ∀ s cell', h'.strings.find? s = some cell' → h.strings.find? s = none →
      h'.StringFormed s cell' := by
    exact fun _ _ found none => absurd (found.symm.trans none) (by simp)
  pointed : ∀ o i, h.isAlive o = true → h.peerOf? o = none → h'.peerOf? o = some i →
      h'.NewPeer o i := by
    intro o i _ none some
    cases o <;> exact absurd (none.symm.trans some) (by simp)
  peers : ∀ i q', h'.peers.find? i = some q' → h.peers.find? i = none → h'.PeerFormed q' := by
    exact fun _ _ found none => absurd (found.symm.trans none) (by simp)
  contexts : ∀ c ctx', h'.contexts.find? c = some ctx' → h'.ContextFormed c ctx'
  buffers : ∀ b foreign, h'.buffers.find? b = some foreign → h.buffers.find? b = none →
      foreign.address ≠ 0 := by
    exact fun _ _ found none => absurd (found.symm.trans none) (by simp)
  frames : h'.frames = h.frames := by rfl

theorem Extends.intact (I : h.Intact) (E : h.Extends h') (A : h.AddsFormed h') : h'.Intact where
  vectors w cell' found' := by
    cases found : h.vectors.find? w with
    | none => exact A.vectors w cell' found' found
    | some cell =>
      obtain ⟨p, found'', kept⟩ := E.vectors w cell found
      cases found''.symm.trans found'
      refine E.vectorFormed I found kept (fun i bare hp => A.pointed _ i ?_ ?_ ?_)
      · exact (h.vectors.contains_iff w).mpr ⟨cell, found⟩
      · rw [peerOf?, found]; exact bare
      · rw [peerOf?, found'']; exact hp
  strings s cell' found' := by
    cases found : h.strings.find? s with
    | none => exact A.strings s cell' found' found
    | some cell =>
      obtain ⟨p, found'', kept⟩ := E.strings s cell found
      cases found''.symm.trans found'
      refine E.stringFormed I found kept (fun i bare hp => A.pointed _ i ?_ ?_ ?_)
      · exact (h.strings.contains_iff s).mpr ⟨cell, found⟩
      · rw [peerOf?, found]; exact bare
      · rw [peerOf?, found'']; exact hp
  peers i q' found' := by
    cases found : h.peers.find? i with
    | none => exact A.peers i q' found' found
    | some q =>
      cases (E.peers i q found).symm.trans found'
      exact (I.peers i q' found).extend E
  contexts := A.contexts
  frames f b name value found bound r hr := by
    rw [A.frames] at found
    exact E.has (I.frames f b name value found bound r hr)
  buffers b foreign' found' := by
    cases found : h.buffers.find? b with
    | none => exact A.buffers b foreign' found' found
    | some foreign =>
      cases (E.buffers b foreign found).symm.trans found'
      exact I.buffers b foreign' found

end VectorHeap.Heap
