import VectorHeap.Proofs.Heap.Extension

/-! Growth: the ways in which a heap comes to new objects.
Each is an extension that keeps a heap intact. A handle that is drawn a second time stops the growth
half way, with a peer that no object points at; that too leaves the heap intact. -/
namespace VectorHeap.Heap

variable {h h' : Heap}

/-! ### Additions extend -/

theorem Extends.addContext (E : h.Extends h') (ctx : Context) :
    h.Extends { h' with contexts := h'.contexts.add ctx } where
  vectors := E.vectors
  strings := E.strings
  peers := E.peers
  buffers := E.buffers
  contexts c old found := by
    obtain ⟨ctx', found', rest⟩ := E.contexts c old found
    exact ⟨ctx', Store.find_add_of_find ctx found', rest⟩
  frames := E.frames
  nexts := ⟨E.nexts.1, E.nexts.2.1, Nat.le_succ_of_le E.nexts.2.2⟩
  revived := E.revived

theorem Extends.addBuffer (E : h.Extends h') (foreign : ForeignBuffer) (n : Nat) :
    h.Extends { h' with allocations := n, buffers := h'.buffers.add foreign } where
  vectors := E.vectors
  strings := E.strings
  peers := E.peers
  buffers b old found := Store.find_add_of_find foreign (E.buffers b old found)
  contexts := E.contexts
  frames := E.frames
  nexts := E.nexts
  revived := E.revived

theorem Extends.addPeer (E : h.Extends h') (q : Peer) :
    h.Extends { h' with peers := h'.peers.add q } where
  vectors := E.vectors
  strings := E.strings
  peers i old found := Store.find_add_of_find q (E.peers i old found)
  buffers := E.buffers
  contexts := E.contexts
  frames := E.frames
  nexts := E.nexts
  revived := E.revived

theorem Extends.addVector (E : h.Extends h') (cell : VectorCell) :
    h.Extends { h' with vectors := h'.vectors.add cell } where
  vectors w old found := by
    obtain ⟨p, found', kept⟩ := E.vectors w old found
    exact ⟨p, Store.find_add_of_find cell found', kept⟩
  strings := E.strings
  peers := E.peers
  buffers := E.buffers
  contexts := E.contexts
  frames := E.frames
  nexts := ⟨Nat.le_succ_of_le E.nexts.1, E.nexts.2⟩
  revived o issued alive := by
    cases o with
    | vector w =>
      obtain ⟨cell', found⟩ := (Store.contains_iff _ w).mp alive
      rcases Store.eq_or_find_of_find_add found with ⟨rfl, _⟩ | old
      · exact absurd (Nat.lt_of_lt_of_le issued E.nexts.1) (Nat.lt_irrefl _)
      · exact E.revived (.vector w) issued ((Store.contains_iff _ w).mpr ⟨cell', old⟩)
    | string s => exact E.revived (.string s) issued alive

theorem Extends.addString (E : h.Extends h') (cell : StringCell) :
    h.Extends { h' with strings := h'.strings.add cell } where
  vectors := E.vectors
  strings s old found := by
    obtain ⟨p, found', kept⟩ := E.strings s old found
    exact ⟨p, Store.find_add_of_find cell found', kept⟩
  peers := E.peers
  buffers := E.buffers
  contexts := E.contexts
  frames := E.frames
  nexts := ⟨E.nexts.1, Nat.le_succ_of_le E.nexts.2.1, E.nexts.2.2⟩
  revived o issued alive := by
    cases o with
    | vector w => exact E.revived (.vector w) issued alive
    | string s =>
      obtain ⟨cell', found⟩ := (Store.contains_iff _ s).mp alive
      rcases Store.eq_or_find_of_find_add found with ⟨rfl, _⟩ | old
      · exact absurd (Nat.lt_of_lt_of_le issued E.nexts.2.1) (Nat.lt_irrefl _)
      · exact E.revived (.string s) issued ((Store.contains_iff _ s).mpr ⟨cell', old⟩)

theorem Extends.modifyContext (E : h.Extends h') (c : ContextId) (f : Context → Context)
    (kept : ∀ ctx, (f ctx).sentinel = ctx.sentinel ∧ (f ctx).switches = ctx.switches ∧
      (f ctx).reclaimer = ctx.reclaimer ∧ ∀ s, ctx.naString = some s → (f ctx).naString = some s) :
    h.Extends (h'.modifyContext c f) where
  vectors := E.vectors
  strings := E.strings
  peers := E.peers
  buffers := E.buffers
  contexts i old found := by
    obtain ⟨ctx', found', sentinel, switches, reclaimer, naString⟩ := E.contexts i old found
    by_cases same : c = i
    · subst same
      obtain ⟨sentinel', switches', reclaimer', naString'⟩ := kept ctx'
      exact ⟨f ctx', (h'.contexts.find_modify_self c f).trans (congrArg (Option.map f) found'),
        sentinel'.trans sentinel, switches'.trans switches, reclaimer'.trans reclaimer,
        fun s hs => naString' s (naString s hs)⟩
    · exact ⟨ctx', (h'.contexts.find_modify_ne f same).trans found', sentinel, switches, reclaimer,
        naString⟩
  frames := E.frames
  nexts := E.nexts
  revived := E.revived

theorem Extends.modifyRegistry (E : h.Extends h') (c : ContextId) (f : Registry → Registry) :
    h.Extends (h'.modifyRegistry c f) :=
  E.modifyContext c _ (fun _ => ⟨rfl, rfl, rfl, fun _ => id⟩)

def point (h : Heap) : Object → PeerId → Heap
  | .vector v, p => h.modifyVector v (fun cell => { cell with peer := some p })
  | .string s, p => h.modifyString s (fun cell => { cell with peer := some p })

theorem Extends.point (E : h.Extends h') (o : Object) (p : PeerId) (bare : h'.peerOf? o = none) :
    h.Extends (h'.point o p) := by
  cases o with
  | vector v =>
    refine { E with vectors := fun w cell found => ?_, revived := fun o issued alive => ?_ }
    · obtain ⟨i, found', kept⟩ := E.vectors w cell found
      by_cases same : v = w
      · subst same
        rw [peerOf?, found'] at bare
        refine ⟨some p, ?_, fun j hj => absurd (bare.symm.trans (kept j hj)) (by simp)⟩
        exact (h'.vectors.find_modify_self v _).trans (by rw [found']; rfl)
      · exact ⟨i, (h'.vectors.find_modify_ne _ same).trans found', kept⟩
    · refine E.revived o issued ?_
      cases o with
      | vector w =>
        have there := congrArg Option.isSome
          (h'.vectors.map_find_modify v w (fun cell => { cell with peer := some p }) (fun _ => ())
            (fun _ _ => rfl))
        simp only [Option.isSome_map] at there
        exact there.symm.trans alive
      | string s => exact alive
  | string s =>
    refine { E with strings := fun w cell found => ?_, revived := fun o issued alive => ?_ }
    · obtain ⟨i, found', kept⟩ := E.strings w cell found
      by_cases same : s = w
      · subst same
        rw [peerOf?, found'] at bare
        refine ⟨some p, ?_, fun j hj => absurd (bare.symm.trans (kept j hj)) (by simp)⟩
        exact (h'.strings.find_modify_self s _).trans (by rw [found']; rfl)
      · exact ⟨i, (h'.strings.find_modify_ne _ same).trans found', kept⟩
    · refine E.revived o issued ?_
      cases o with
      | vector w => exact alive
      | string w =>
        have there := congrArg Option.isSome
          (h'.strings.map_find_modify s w (fun cell => { cell with peer := some p }) (fun _ => ())
            (fun _ _ => rfl))
        simp only [Option.isSome_map] at there
        exact there.symm.trans alive

/-! ### New peers -/

def entered (h : Heap) (c : ContextId) (handle : Handle) (o : Object) (site : String) : Heap :=
  ({ h with peers := h.peers.add { handle, owner := o } }).modifyRegistry c
    (fun r => r.draw.enter handle h.peers.fresh site)

theorem Extends.entered (h : Heap) (c : ContextId) (handle : Handle) (o : Object) (site : String) :
    h.Extends (h.entered c handle o site) :=
  ((Extends.refl h).addPeer _).modifyRegistry c _

theorem find_peer_entered (h : Heap) (c : ContextId) (handle : Handle) (o : Object) (site : String) :
    (h.entered c handle o site).peers.find? h.peers.fresh = some { handle, owner := o } :=
  h.peers.find_add_fresh _

theorem peer_entered {r : Registry} {handle k : Handle} {p i : PeerId} {site : String} :
    (r.draw.enter handle p site).peer? k = some i ↔
      (k = handle ∧ i = p) ∨ (k ≠ handle ∧ r.peer? k = some i) := by
  change (r.peers.insert handle p).find? k = some i ↔ _
  rw [Table.find_insert]
  split
  · rename_i same
    subst same
    simp [eq_comm]
  · rename_i other
    simp [Registry.peer?, Ne.symm other]

theorem odd_draw {r : Registry} (odd : r.counter.toNat % 2 = 1) (even : r.stride.toNat % 2 = 0) :
    r.draw.counter.toNat % 2 = 1 := by
  change (r.counter + r.stride).toNat % 2 = 1
  rw [UInt64.toNat_add]
  omega

theorem Intact.entered (I : h.Intact) {c : ContextId} {ctx : Context}
    (found : h.contexts.find? c = some ctx) {o : Object} (issued : h.Issued o) (site : String) :
    (h.entered c ctx.registry.nextHandle o site).Intact := by
  have E := Extends.entered h c ctx.registry.nextHandle o site
  have F := I.contexts c ctx found
  refine E.intact I { peers := ?_, contexts := ?_ }
  · intro i q' found' none
    rcases Store.eq_or_find_of_find_add found' with ⟨rfl, rfl⟩ | old
    · refine ⟨fun r hr => ?_, F.odd, E.issued issued⟩
      simp [Peer.refs] at hr
    · exact absurd (none.symm.trans old) (by simp)
  · intro i ctx' found'
    by_cases same : c = i
    · subst same
      rw [Heap.entered, modifyRegistry, modifyContext, Store.find_modify_self] at found'
      obtain ⟨ctx'', found'', rfl⟩ := Option.map_eq_some_iff.mp found'
      cases found.symm.trans found''
      refine
        { refs := ?_, odd := odd_draw F.odd F.even, even := F.even, entry := ?_, queued := ?_,
          sentinel := F.sentinel, naString := F.naString }
      · intro r hr
        rcases mem_context_refs.mp hr with ⟨s, hs, rfl⟩ | ⟨k, p, hk, rfl⟩ | ⟨p, hp, rfl⟩
        · exact E.has (F.refs _ (mem_context_refs.mpr (.inl ⟨s, hs, rfl⟩)))
        · rcases peer_entered.mp hk with ⟨_, rfl⟩ | ⟨_, hk⟩
          · exact has_peer_iff.mpr ⟨_, find_peer_entered ..⟩
          · exact E.has (F.refs _ (mem_context_refs.mpr (.inr (.inl ⟨k, p, hk, rfl⟩))))
        · exact E.has (F.refs _ (mem_context_refs.mpr (.inr (.inr ⟨p, hp, rfl⟩))))
      · intro k p q' hk hq'
        rcases peer_entered.mp hk with ⟨rfl, rfl⟩ | ⟨_, hk⟩
        · cases (find_peer_entered ..).symm.trans hq'
          rfl
        · obtain ⟨q, hq⟩ :=
            has_peer_iff.mp (F.refs _ (mem_context_refs.mpr (.inr (.inl ⟨k, p, hk, rfl⟩))))
          cases (E.peers p q hq).symm.trans hq'
          exact F.entry k p q' hk hq
      · intro p q' hp hq'
        obtain ⟨q, hq⟩ := has_peer_iff.mp (F.refs _ (mem_context_refs.mpr (.inr (.inr ⟨p, hp, rfl⟩))))
        cases (E.peers p q hq).symm.trans hq'
        have dead := F.queued p q' hp hq
        cases ho : q'.owner <;> rw [ho] at dead <;> exact dead
    · have old : h.contexts.find? i = some ctx' :=
        (h.contexts.find_modify_ne _ same).symm.trans found'
      exact E.contextFormed I old rfl rfl

theorem Intact.counted (I : h.Intact) (c : ContextId) :
    (h.modifyRegistry c (·.countRegistered)).Intact := by
  have E := (Extends.refl h).modifyRegistry c (·.countRegistered)
  refine E.intact I { contexts := ?_ }
  intro i ctx' found'
  by_cases same : c = i
  · subst same
    rw [modifyRegistry, modifyContext, Store.find_modify_self] at found'
    obtain ⟨ctx, found, rfl⟩ := Option.map_eq_some_iff.mp found'
    have F := E.contextFormed I found rfl rfl
    exact ⟨F.refs, F.odd, F.even, F.entry, F.queued, F.sentinel, F.naString⟩
  · have old : h.contexts.find? i = some ctx' :=
      (h.contexts.find_modify_ne _ same).symm.trans found'
    exact E.contextFormed I old rfl rfl

theorem peers_point (h : Heap) (o : Object) (p : PeerId) : (h.point o p).peers = h.peers := by
  cases o <;> rfl

theorem contexts_point (h : Heap) (o : Object) (p : PeerId) :
    (h.point o p).contexts = h.contexts := by
  cases o <;> rfl

theorem peerOf_point {o : Object} (alive : h.isAlive o = true) (p : PeerId) (o' : Object) :
    (h.point o p).peerOf? o' = if o = o' then some p else h.peerOf? o' := by
  cases o with
  | vector v =>
    obtain ⟨cell, found⟩ := (h.vectors.contains_iff v).mp alive
    cases o' with
    | vector w =>
      by_cases same : v = w
      · subst same
        simp only [point, modifyVector, peerOf?, Store.find_modify_self, found, Option.map_some,
          Option.bind_some, if_true]
      · have other : Object.vector v ≠ .vector w := fun e => same (Object.vector.inj e)
        simp only [point, modifyVector, peerOf?, Store.find_modify_ne _ _ same, if_neg other]
    | string s => simp only [point, modifyVector, peerOf?, reduceCtorEq, if_false]
  | string s =>
    obtain ⟨cell, found⟩ := (h.strings.contains_iff s).mp alive
    cases o' with
    | vector w => simp only [point, modifyString, peerOf?, reduceCtorEq, if_false]
    | string w =>
      by_cases same : s = w
      · subst same
        simp only [point, modifyString, peerOf?, Store.find_modify_self, found, Option.map_some,
          Option.bind_some, if_true]
      · have other : Object.string s ≠ .string w := fun e => same (Object.string.inj e)
        simp only [point, modifyString, peerOf?, Store.find_modify_ne _ _ same, if_neg other]

theorem Intact.point (I : h.Intact) {o : Object} {p : PeerId} (alive : h.isAlive o = true)
    (bare : h.peerOf? o = none) (new : h.NewPeer o p) : (h.point o p).Intact := by
  have E := (Extends.refl h).point o p bare
  have peers := peers_point h o p
  refine E.intact I
    { vectors := ?_, strings := ?_, pointed := ?_, peers := ?_, contexts := ?_, buffers := ?_,
      frames := by cases o <;> rfl }
  · intro w cell found' none
    have there : (h.point o p).isAlive (.vector w) = true :=
      (Store.contains_iff _ w).mpr ⟨cell, found'⟩
    have issued : (h.point o p).vectors.next = h.vectors.next := by cases o <;> rfl
    obtain ⟨cell', found⟩ := (Store.contains_iff _ w).mp (E.revived (.vector w)
      (Nat.lt_of_lt_of_eq (Store.lt_next_of_find _ w cell found') issued) there)
    exact absurd (found.symm.trans none) (by simp)
  · intro s cell found' none
    have there : (h.point o p).isAlive (.string s) = true :=
      (Store.contains_iff _ s).mpr ⟨cell, found'⟩
    have issued : (h.point o p).strings.next = h.strings.next := by cases o <;> rfl
    obtain ⟨cell', found⟩ := (Store.contains_iff _ s).mp (E.revived (.string s)
      (Nat.lt_of_lt_of_eq (Store.lt_next_of_find _ s cell found') issued) there)
    exact absurd (found.symm.trans none) (by simp)
  · intro o' i _ none some
    rw [peerOf_point alive] at some
    by_cases same : o = o'
    · subst same
      rw [if_pos rfl] at some
      cases some
      simpa only [NewPeer, peers] using new
    · rw [if_neg same] at some
      exact absurd (none.symm.trans some) (by simp)
  · intro i q found' none
    rw [peers] at found'
    exact absurd (found'.symm.trans none) (by simp)
  · intro c ctx found'
    rw [contexts_point] at found'
    exact E.contextFormed I found' rfl rfl
  · intro b foreign found' none
    have same : (h.point o p).buffers = h.buffers := by cases o <;> rfl
    rw [same] at found'
    exact absurd (found'.symm.trans none) (by simp)

/-! ### Other new objects -/

theorem odd_base (s : HandleSequence) : s.normalize.base.toNat % 2 = 1 := by
  simp only [HandleSequence.normalize, UInt64.toNat_or]
  change (s.base.toNat ||| 1) % 2 = 1
  rw [Nat.or_mod_two_eq_one]
  exact .inr rfl

theorem even_stride (s : HandleSequence) : s.normalize.stride.toNat % 2 = 0 := by
  simp only [HandleSequence.normalize, UInt64.toNat_and]
  generalize (if s.stride < 2 then 2 else s.stride).toNat = n
  change (n &&& 0xFFFFFFFFFFFFFFFE) % 2 = 0
  have bit : (n &&& 0xFFFFFFFFFFFFFFFE) % 2 ≠ 1 := fun odd => by
    rw [Nat.and_mod_two_eq_one] at odd
    exact absurd odd.2 (by decide)
  omega

theorem Intact.addContext (I : h.Intact) (config : Config) :
    Heap.Intact { h with contexts := h.contexts.add (.ofConfig config) } := by
  have E := (Extends.refl h).addContext (.ofConfig config)
  refine E.intact I { contexts := ?_ }
  intro c ctx found'
  rcases Store.eq_or_find_of_find_add found' with ⟨rfl, rfl⟩ | old
  · refine
      { refs := fun r hr => ?_, odd := odd_base _, even := even_stride _,
        entry := fun k p q hk => ?_, queued := fun p q hp => ?_, sentinel := fun a ha => ?_,
        naString := fun s cell hs => ?_ }
    · rcases mem_context_refs.mp hr with ⟨s, hs, _⟩ | ⟨k, p, hk, _⟩ | ⟨p, hp, _⟩
      · exact absurd hs (by simp [Context.ofConfig])
      · exact absurd hk (by simp [Context.ofConfig, Registry.ofConfig, Registry.peer?])
      · exact absurd hp (by simp [Context.ofConfig])
    · exact absurd hk (by simp [Context.ofConfig, Registry.ofConfig, Registry.peer?])
    · exact absurd hp (by simp [Context.ofConfig])
    · exact absurd ha (by simp [Context.ofConfig])
    · exact absurd hs (by simp [Context.ofConfig])
  · exact E.contextFormed I old rfl rfl

theorem Intact.addBuffer (I : h.Intact) {foreign : ForeignBuffer} (nonzero : foreign.address ≠ 0)
    (n : Nat) : Heap.Intact { h with allocations := n, buffers := h.buffers.add foreign } := by
  have E := (Extends.refl h).addBuffer foreign n
  refine E.intact I { contexts := ?_, buffers := ?_ }
  · exact fun c ctx found' => E.contextFormed I found' rfl rfl
  · intro b foreign' found' none
    rcases Store.eq_or_find_of_find_add found' with ⟨rfl, rfl⟩ | old
    · exact nonzero
    · exact absurd (none.symm.trans old) (by simp)

/-- A managed vector that nothing points at yet can be added when all it refers to is there. -/
structure Addable (h : Heap) (cell : VectorCell) (b : Buffer) : Prop where
  buffer : cell.buffer = some b
  peer : cell.peer = none
  type : b.type = cell.type
  capacity : b.capacity = cell.capacity
  window : cell.length ≤ cell.capacity
  refs : ∀ r ∈ cell.refs, h.has r = true
  temporary : cell.sharing = .temporary
  complete : cell.complete = true → ∀ e ∈ b.slots.take cell.length, h.isNA e = false

theorem Intact.addVector (I : h.Intact) {cell : VectorCell} {b : Buffer} (A : h.Addable cell b) :
    Heap.Intact { h with vectors := h.vectors.add cell } := by
  have E := (Extends.refl h).addVector cell
  refine E.intact I { vectors := ?_, pointed := ?_, contexts := ?_ }
  · intro w cell' found' none
    rcases Store.eq_or_find_of_find_add found' with ⟨rfl, rfl⟩ | old
    · refine
        { refs := fun r hr => E.has (A.refs r hr), window := A.window,
          peer := fun i q hi => absurd (A.peer.symm.trans hi) (by simp),
          managed := fun b' hb' => ?_,
          native := fun bare => absurd (A.buffer.symm.trans bare) (by simp) }
      cases A.buffer.symm.trans hb'
      exact ⟨A.type, A.capacity, fun i q hi => absurd (A.peer.symm.trans hi) (by simp)⟩
    · exact absurd (none.symm.trans old) (by simp)
  · intro o i alive none some
    cases o with
    | vector w =>
      obtain ⟨cell', found⟩ := (Store.contains_iff _ w).mp alive
      have found' := Store.find_add_of_find cell found
      simp only [peerOf?, found, found', Option.bind_some] at none some
      exact absurd (none.symm.trans some) (by simp)
    | string s => exact absurd (none.symm.trans some) (by simp)
  · exact fun c ctx found' => E.contextFormed I found' rfl rfl

theorem Intact.addString (I : h.Intact) {cell : StringCell} (bare : cell.peer = none)
    (issued : cell.context.index < h.contexts.next) :
    Heap.Intact { h with strings := h.strings.add cell } := by
  have E := (Extends.refl h).addString cell
  refine E.intact I { strings := ?_, pointed := ?_, contexts := ?_ }
  · intro s cell' found' none
    rcases Store.eq_or_find_of_find_add found' with ⟨rfl, rfl⟩ | old
    · refine ⟨fun r hr => ?_, issued, fun i q hi => absurd (bare.symm.trans hi) (by simp)⟩
      obtain ⟨i, hi, _⟩ := mem_string_refs.mp hr
      exact absurd (bare.symm.trans hi) (by simp)
    · exact absurd (none.symm.trans old) (by simp)
  · intro o i alive none some
    cases o with
    | vector w => exact absurd (none.symm.trans some) (by simp)
    | string s =>
      obtain ⟨cell', found⟩ := (Store.contains_iff _ s).mp alive
      have found' := Store.find_add_of_find cell found
      simp only [peerOf?, found, found', Option.bind_some] at none some
      exact absurd (none.symm.trans some) (by simp)
  · exact fun c ctx found' => E.contextFormed I found' rfl rfl

def nameNA (h : Heap) (c : ContextId) (s : StringId) : Heap :=
  h.modifyContext c (fun ctx => { ctx with naString := some s })

theorem Intact.nameNA (I : h.Intact) {c : ContextId} {ctx : Context} {s : StringId}
    {cell : StringCell} (found : h.contexts.find? c = some ctx) (unnamed : ctx.naString = none)
    (string : h.strings.find? s = some cell) (own : cell.context = c) (na : cell.isNA = true) :
    h.Extends (h.nameNA c s) ∧ (h.nameNA c s).Intact := by
  have E : h.Extends (h.nameNA c s) :=
    { Extends.refl h with
      contexts := fun i old found' => by
        by_cases same : c = i
        · subst same
          cases found.symm.trans found'
          refine ⟨{ ctx with naString := some s }, ?_, rfl, rfl, rfl, ?_⟩
          · exact (h.contexts.find_modify_self c _).trans (by rw [found]; rfl)
          · exact fun s' hs' => absurd (unnamed.symm.trans hs') (by simp)
        · exact ⟨old, (h.contexts.find_modify_ne _ same).trans found', rfl, rfl, rfl, fun _ => id⟩ }
  refine ⟨E, E.intact I { contexts := ?_ }⟩
  intro i ctx' found'
  by_cases same : c = i
  · subst same
    rw [Heap.nameNA, modifyContext, Store.find_modify_self, found] at found'
    cases found'
    have F := E.contextFormed I found rfl rfl
    refine { F with refs := fun r hr => ?_, naString := fun s' cell' hs' hcell' => ?_ }
    · rcases mem_context_refs.mp hr with ⟨s', hs', rfl⟩ | held
      · cases hs'
        exact has_string_iff.mpr ⟨cell, string⟩
      · exact F.refs r (mem_context_refs.mpr (.inr held))
    · cases hs'
      cases string.symm.trans hcell'
      exact ⟨own, na⟩
  · have old : h.contexts.find? i = some ctx' :=
      (h.contexts.find_modify_ne _ same).symm.trans found'
    exact E.contextFormed I old rfl rfl

def discarded (h : Heap) (cell : VectorCell) : Heap :=
  { h with vectors := (h.vectors.add cell).erase h.vectors.fresh }

theorem find_discarded (h : Heap) (cell : VectorCell) (w : VectorId) :
    (h.discarded cell).vectors.find? w = h.vectors.find? w := by
  rw [discarded, Store.find_erase, Store.find_add]
  split
  · rename_i same
    rw [← same, Store.find_fresh]
  · rfl

theorem Intact.discarded (I : h.Intact) (cell : VectorCell) :
    h.Extends (h.discarded cell) ∧ (h.discarded cell).Intact := by
  have E : h.Extends (h.discarded cell) :=
    { Extends.refl h with
      vectors := fun w old found =>
        ⟨old.peer, (find_discarded h cell w).trans found, fun _ => id⟩
      nexts := ⟨Nat.le_succ _, Nat.le_refl _, Nat.le_refl _⟩
      revived := fun o _ alive => by
        cases o with
        | vector w =>
          obtain ⟨old, found⟩ := (Store.contains_iff _ w).mp alive
          exact (Store.contains_iff _ w).mpr ⟨old, (find_discarded h cell w).symm.trans found⟩
        | string s => exact alive }
  refine ⟨E, E.intact I { vectors := ?_, pointed := ?_, contexts := ?_ }⟩
  · intro w cell' found' none
    rw [find_discarded] at found'
    exact absurd (found'.symm.trans none) (by simp)
  · intro o i _ none some
    cases o with
    | vector w =>
      rw [peerOf?, find_discarded] at some
      exact absurd (none.symm.trans some) (by simp)
    | string s => exact absurd (none.symm.trans some) (by simp)
  · exact fun c ctx found' => E.contextFormed I found' rfl rfl

/-! ### Growth -/

inductive Growth (h : Heap) : Heap → Prop
  | context (config : Config) :
    Growth h { h with contexts := h.contexts.add (.ofConfig config) }
  | buffer (foreign : ForeignBuffer) (n : Nat) (nonzero : foreign.address ≠ 0)
      (more : h.allocations ≤ n) :
    Growth h { h with allocations := n, buffers := h.buffers.add foreign }
  | vector (cell : VectorCell) (b : Buffer) (addable : h.Addable cell b) :
    Growth h { h with vectors := h.vectors.add cell }
  | string (cell : StringCell) (bare : cell.peer = none)
      (alive : h.has (.context cell.context) = true) :
    Growth h { h with strings := h.strings.add cell }
  | naString (c : ContextId) (ctx : Context) (s : StringId) (cell : StringCell)
      (found : h.contexts.find? c = some ctx) (unnamed : ctx.naString = none)
      (string : h.strings.find? s = some cell) (own : cell.context = c) (na : cell.isNA = true) :
    Growth h (h.nameNA c s)
  | peer (c : ContextId) (ctx : Context) (o : Object) (site : String)
      (found : h.contexts.find? c = some ctx) (own : h.contextOf? o = some c)
      (bare : h.peerOf? o = none) (free : ctx.registry.peer? ctx.registry.nextHandle = none) :
    Growth h ((((h.entered c ctx.registry.nextHandle o site).modifyRegistry c
      (·.countRegistered))).point o h.peers.fresh)

/-- How growth stops at a handle that is taken: the new peer took over its entry, and a vector that
was being made for it is gone. -/
inductive Refusal (f : Fault) : Heap → Heap → Prop
  | entered (h : Heap) (c : ContextId) (ctx : Context) (o : Object) (site : String)
      (found : h.contexts.find? c = some ctx) (issued : h.Issued o) (bare : h.peerOf? o = none)
      (taken : f = .panic (.registeredTwice ctx.registry.nextHandle)) :
    Refusal f h (h.entered c ctx.registry.nextHandle o site)
  | discarded (h h' : Heap) (cell : VectorCell) (rest : Refusal f (h.discarded cell) h') : Refusal f h h'

theorem issued_of_isAlive {o : Object} (alive : h.isAlive o = true) : h.Issued o := by
  cases o with
  | vector v =>
    obtain ⟨cell, found⟩ := (Store.contains_iff _ v).mp alive
    exact Store.lt_next_of_find _ v cell found
  | string s =>
    obtain ⟨cell, found⟩ := (Store.contains_iff _ s).mp alive
    exact Store.lt_next_of_find _ s cell found

theorem Growth.extends (I : h.Intact) (G : h.Growth h') : h.Extends h' := by
  cases G with
  | context config => exact (Extends.refl h).addContext _
  | buffer foreign n nonzero more => exact (Extends.refl h).addBuffer _ _
  | vector cell b addable => exact (Extends.refl h).addVector _
  | string cell bare alive => exact (Extends.refl h).addString _
  | naString c ctx s cell found unnamed string own na =>
    exact (I.nameNA found unnamed string own na).1
  | peer c ctx o site found own bare free =>
    refine Extends.point (Extends.modifyRegistry (Extends.entered h c _ o site) c _) o _ ?_
    cases o <;> exact bare

theorem Growth.frames (G : h.Growth h') : h'.frames = h.frames := by
  cases G with
  | peer c ctx o site found own bare free => cases o <;> rfl
  | _ => rfl

theorem Growth.asks (G : h.Growth h') : h.Asks h' := by
  cases G with
  | buffer foreign n nonzero more => exact ⟨rfl, more⟩
  | peer c ctx o site found own bare free => cases o <;> exact ⟨rfl, Nat.le_refl _⟩
  | _ => exact ⟨rfl, Nat.le_refl _⟩

theorem Growth.intact (I : h.Intact) (G : h.Growth h') : h'.Intact := by
  cases G with
  | context config => exact I.addContext config
  | buffer foreign n nonzero more => exact I.addBuffer nonzero n
  | vector cell b addable => exact I.addVector addable
  | string cell bare alive =>
    obtain ⟨ctx, found⟩ := has_context_iff.mp alive
    exact I.addString bare (Store.lt_next_of_find _ _ ctx found)
  | naString c ctx s cell found unnamed string own na =>
    exact (I.nameNA found unnamed string own na).2
  | peer c ctx o site found own bare free =>
    have alive : h.isAlive o = true := isAlive_iff_contextOf.mpr ⟨c, own⟩
    have counted := (I.entered found (issued_of_isAlive alive) site).counted c
    refine counted.point ?_ ?_ ⟨_, find_peer_entered h c _ o site, rfl, rfl, rfl, rfl⟩
    · cases o <;> exact alive
    · cases o <;> exact bare

theorem Refusal.intact {f : Fault} (I : h.Intact) (R : h.Refusal f h') : h'.Intact := by
  induction R with
  | entered h c ctx o site found issued => exact I.entered found issued site
  | discarded h h' cell rest ih => exact ih (I.discarded cell).2

end VectorHeap.Heap
