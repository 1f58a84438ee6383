import VectorHeap.Proofs.Heap.Intact

/-! Revisions: changes within one vector and one peer.
A revision adds and removes no object. It may change the slots and the window of one vector, the
contents of one peer, and of contexts what does not name objects. Everything else about the heap is
as before, so that a heap stays intact if that one vector is formed afterwards. -/
namespace VectorHeap

/-! ### What a revision leaves alone -/

def VectorCell.fixed (cell : VectorCell) : ContextId × ElemType × Option PeerId :=
  (cell.context, cell.type, cell.peer)

def Peer.fixed (q : Peer) : Handle × Object × Bool := (q.handle, q.owner, q.released)

def ForeignBuffer.extent (b : ForeignBuffer) : Address × Nat := (b.address, b.bytes.length)

/-- Which peers a context knows, by handle and in its reclaimer, and how often it counted them. -/
structure Accounts where
  peers : Table Handle PeerId
  counter : UInt64
  stride : UInt64
  registered : Nat
  reclaimer : Reclaimer
  naString : Option StringId

def Context.accounts (ctx : Context) : Accounts where
  peers := ctx.registry.peers
  counter := ctx.registry.counter
  stride := ctx.registry.stride
  registered := ctx.registry.registered
  reclaimer := ctx.reclaimer
  naString := ctx.naString

theorem accounts_addContents (r : Registry) (k : Handle) (b : Backing) :
    (r.addContents k b).peers = r.peers ∧ (r.addContents k b).counter = r.counter ∧
      (r.addContents k b).stride = r.stride ∧ (r.addContents k b).registered = r.registered := by
  cases b <;> exact ⟨rfl, rfl, rfl, rfl⟩

theorem accounts_dropContents (r : Registry) (b : Backing) :
    (r.dropContents b).peers = r.peers ∧ (r.dropContents b).counter = r.counter ∧
      (r.dropContents b).stride = r.stride ∧ (r.dropContents b).registered = r.registered := by
  cases b <;> exact ⟨rfl, rfl, rfl, rfl⟩

theorem liveBytes_addContents (r : Registry) (k : Handle) (b : Backing) :
    (r.addContents k b).liveBytes = r.liveBytes + b.ownedBytes := by
  cases b <;> rfl

theorem liveBytes_dropContents (r : Registry) (b : Backing) :
    (r.dropContents b).liveBytes = r.liveBytes - b.ownedBytes := by
  cases b <;> rfl

theorem isSome_byAddress_addContents (r : Registry) (k : Handle) (b : Backing) :
    (r.addContents k b).byAddress.isSome = r.byAddress.isSome := by
  cases b with
  | owned address bytes => exact Option.isSome_map
  | _ => rfl

theorem isSome_byAddress_dropContents (r : Registry) (b : Backing) :
    (r.dropContents b).byAddress.isSome = r.byAddress.isSome := by
  cases b with
  | owned address bytes => exact Option.isSome_map
  | _ => rfl

namespace Heap

def liveBytes (h : Heap) (c : ContextId) : Nat :=
  ((h.contexts.find? c).map (·.registry.liveBytes)).getD 0

theorem liveBytes_modifyContext (h : Heap) (c : ContextId) (f : Context → Context)
    (kept : ∀ ctx, (f ctx).registry.liveBytes = ctx.registry.liveBytes) (c' : ContextId) :
    (h.modifyContext c f).liveBytes c' = h.liveBytes c' :=
  congrArg (Option.getD · 0) (h.contexts.map_find_modify c c' f
    (fun ctx => ctx.registry.liveBytes) (fun ctx _ => kept ctx))

/-- The allocator is the same one, and may have been asked for blocks. -/
structure Asks (h h' : Heap) : Prop where
  supply : h'.supply = h.supply
  allocations : h.allocations ≤ h'.allocations

theorem Asks.refl (h : Heap) : h.Asks h := ⟨rfl, Nat.le_refl _⟩

theorem Asks.trans {h h' h'' : Heap} (A : h.Asks h') (A' : h'.Asks h'') : h.Asks h'' :=
  ⟨A'.supply.trans A.supply, Nat.le_trans A.allocations A'.allocations⟩

/-- The allocator may refuse so many bytes, now or at a later request. -/
def Scarce (h : Heap) (bytes : Nat) : Prop :=
  ∃ n, h.allocations ≤ n ∧ Block.Refused (fun bytes => (h.supply n bytes).isSome) bytes

theorem Asks.scarce {h h' : Heap} {bytes : Nat} (A : h.Asks h') (S : h'.Scarce bytes) :
    h.Scarce bytes := by
  obtain ⟨n, later, refused⟩ := S
  rw [A.supply] at refused
  exact ⟨n, Nat.le_trans A.allocations later, refused⟩

structure Revises (h : Heap) (v : Option VectorId) (p : Option PeerId) (h' : Heap) : Prop where
  vectors : ∀ w, (h'.vectors.find? w).map VectorCell.fixed = (h.vectors.find? w).map VectorCell.fixed
  vector : ∀ w, v ≠ some w → h'.vectors.find? w = h.vectors.find? w
  peers : ∀ i, (h'.peers.find? i).map Peer.fixed = (h.peers.find? i).map Peer.fixed
  peer : ∀ i, p ≠ some i → h'.peers.find? i = h.peers.find? i
  contexts : ∀ c,
    (h'.contexts.find? c).map Context.accounts = (h.contexts.find? c).map Context.accounts
  counted : p = none → ∀ c, h'.liveBytes c = h.liveBytes c
  sentinels : ∀ c a, h.sentinelOf? c = some a → h'.sentinelOf? c = some a
  sentinel : ∀ c a, h'.sentinelOf? c = some a → h.sentinelOf? c = some a ∨ a ≠ 0
  switches : ∀ c t, h.isPromoted c t = true → h'.isPromoted c t = true
  buffers : ∀ b,
    (h'.buffers.find? b).map ForeignBuffer.extent = (h.buffers.find? b).map ForeignBuffer.extent
  strings : h'.strings = h.strings
  frames : h'.frames = h.frames
  nexts : h'.vectors.next = h.vectors.next ∧ h'.contexts.next = h.contexts.next ∧
    h'.peers.next = h.peers.next
  asks : h.Asks h'

variable {h h' h'' : Heap} {v : Option VectorId} {p : Option PeerId}

theorem Revises.refl (h : Heap) (v : Option VectorId) (p : Option PeerId) : h.Revises v p h where
  vectors _ := rfl
  vector _ _ := rfl
  peers _ := rfl
  peer _ _ := rfl
  contexts _ := rfl
  counted _ _ := rfl
  sentinels _ _ := id
  sentinel _ _ := .inl
  switches _ _ := id
  buffers _ := rfl
  strings := rfl
  frames := rfl
  nexts := ⟨rfl, rfl, rfl⟩
  asks := .refl h

theorem Revises.trans (R : h.Revises v p h') (R' : h'.Revises v p h'') : h.Revises v p h'' where
  vectors w := (R'.vectors w).trans (R.vectors w)
  vector w ne := (R'.vector w ne).trans (R.vector w ne)
  peers i := (R'.peers i).trans (R.peers i)
  peer i ne := (R'.peer i ne).trans (R.peer i ne)
  contexts c := (R'.contexts c).trans (R.contexts c)
  counted bare c := (R'.counted bare c).trans (R.counted bare c)
  sentinels c a found := R'.sentinels c a (R.sentinels c a found)
  sentinel c a found := (R'.sentinel c a found).elim (R.sentinel c a) .inr
  switches c t flipped := R'.switches c t (R.switches c t flipped)
  buffers b := (R'.buffers b).trans (R.buffers b)
  strings := R'.strings.trans R.strings
  frames := R'.frames.trans R.frames
  nexts := ⟨R'.nexts.1.trans R.nexts.1, R'.nexts.2.1.trans R.nexts.2.1,
    R'.nexts.2.2.trans R.nexts.2.2⟩
  asks := R.asks.trans R'.asks

/-! ### The updates that revise -/

theorem Revises.modifyVector (R : h.Revises v p h') (w : VectorId) (f : VectorCell → VectorCell)
    (own : v = some w) (fixed : ∀ cell, (f cell).fixed = cell.fixed) :
    h.Revises v p (h'.modifyVector w f) := by
  refine R.trans { Revises.refl h' v p with vectors := ?_, vector := ?_, nexts := ?_, asks := ⟨rfl, Nat.le_refl _⟩ }
  · exact fun i => h'.vectors.map_find_modify w i f VectorCell.fixed (fun cell _ => fixed cell)
  · exact fun i ne => h'.vectors.find_modify_ne f (fun e => ne (own.trans (congrArg some e)))
  · exact ⟨rfl, rfl, rfl⟩

theorem Revises.modifyPeer (R : h.Revises v p h') (i : PeerId) (f : Peer → Peer)
    (own : p = some i) (fixed : ∀ q, (f q).fixed = q.fixed) :
    h.Revises v p (h'.modifyPeer i f) := by
  refine R.trans { Revises.refl h' v p with peers := ?_, peer := ?_, nexts := ?_, asks := ⟨rfl, Nat.le_refl _⟩ }
  · exact fun j => h'.peers.map_find_modify i j f Peer.fixed (fun q _ => fixed q)
  · exact fun j ne => h'.peers.find_modify_ne f (fun e => ne (own.trans (congrArg some e)))
  · exact ⟨rfl, rfl, rfl⟩

theorem Revises.modifyContext (R : h.Revises v p h') (c : ContextId) (f : Context → Context)
    (accounts : ∀ ctx, (f ctx).accounts = ctx.accounts)
    (counted : p = none → ∀ ctx, (f ctx).registry.liveBytes = ctx.registry.liveBytes)
    (sentinels : ∀ ctx a, h'.contexts.find? c = some ctx → ctx.sentinel = some a →
      (f ctx).sentinel = some a)
    (sentinel : ∀ ctx a, (f ctx).sentinel = some a → ctx.sentinel = some a ∨ a ≠ 0)
    (switches : ∀ ctx t, ctx.switches.isPromoted t = true → (f ctx).switches.isPromoted t = true) :
    h.Revises v p (h'.modifyContext c f) := by
  refine R.trans { Revises.refl h' v p with
    contexts := ?_, counted := ?_, sentinels := ?_, sentinel := ?_, switches := ?_, nexts := ?_,
    asks := ⟨rfl, Nat.le_refl _⟩ }
  · exact fun i => h'.contexts.map_find_modify c i f Context.accounts (fun ctx _ => accounts ctx)
  · exact fun bare i => h'.liveBytes_modifyContext c f (counted bare) i
  · intro i a found
    obtain ⟨ctx, hctx, ha⟩ := Option.bind_eq_some_iff.mp found
    refine Option.bind_eq_some_iff.mpr ?_
    by_cases e : c = i
    · subst e
      exact ⟨f ctx, (h'.contexts.find_modify_self c f).trans (congrArg (Option.map f) hctx),
        sentinels ctx a hctx ha⟩
    · exact ⟨ctx, (h'.contexts.find_modify_ne f e).trans hctx, ha⟩
  · intro i a found
    obtain ⟨ctx, hctx, ha⟩ := Option.bind_eq_some_iff.mp found
    by_cases e : c = i
    · subst e
      obtain ⟨old, hold, rfl⟩ :=
        Option.map_eq_some_iff.mp ((h'.contexts.find_modify_self c f).symm.trans hctx)
      exact (sentinel old a ha).imp_left (fun h => Option.bind_eq_some_iff.mpr ⟨old, hold, h⟩)
    · exact .inl (Option.bind_eq_some_iff.mpr
        ⟨ctx, (h'.contexts.find_modify_ne f e).symm.trans hctx, ha⟩)
  · intro i t flipped
    obtain ⟨ctx, hctx, ht⟩ := (Option.any_eq_true _ _).mp flipped
    refine (Option.any_eq_true _ _).mpr ?_
    by_cases e : c = i
    · subst e
      exact ⟨f ctx, (h'.contexts.find_modify_self c f).trans (congrArg (Option.map f) hctx),
        switches ctx t ht⟩
    · exact ⟨ctx, (h'.contexts.find_modify_ne f e).trans hctx, ht⟩
  · exact ⟨rfl, rfl, rfl⟩

theorem Revises.modifyRegistry {i : PeerId} (R : h.Revises v (some i) h') (c : ContextId)
    (f : Registry → Registry)
    (accounts : ∀ r, (f r).peers = r.peers ∧ (f r).counter = r.counter ∧ (f r).stride = r.stride ∧
      (f r).registered = r.registered) : h.Revises v (some i) (h'.modifyRegistry c f) := by
  refine R.modifyContext c _ ?_ (by simp) (fun _ _ _ => id) (fun _ _ => .inl) (fun _ _ => id)
  intro ctx
  obtain ⟨peers, counter, stride, registered⟩ := accounts ctx.registry
  simp only [Context.accounts, peers, counter, stride, registered]

theorem Revises.modifyBuffer (R : h.Revises v p h') (b : BufferId)
    (f : ForeignBuffer → ForeignBuffer)
    (extent : ∀ foreign, h'.buffers.find? b = some foreign → (f foreign).extent = foreign.extent) :
    h.Revises v p (h'.modifyBuffer b f) := by
  refine R.trans { Revises.refl h' v p with buffers := ?_, nexts := ?_, asks := ⟨rfl, Nat.le_refl _⟩ }
  · exact fun i => h'.buffers.map_find_modify b i f ForeignBuffer.extent extent
  · exact ⟨rfl, rfl, rfl⟩

theorem Revises.place (R : h.Revises v p h') {n : Nat} (more : h'.allocations ≤ n) :
    h.Revises v p { h' with allocations := n } :=
  R.trans { Revises.refl h' v p with nexts := ⟨rfl, rfl, rfl⟩, asks := ⟨rfl, more⟩ }

/-! ### What follows for objects -/

theorem isSome_eq_of_map_eq {α β : Type} {x y : Option α} {key : α → β} (same : y.map key = x.map key) :
    y.isSome = x.isSome := by
  simpa only [Option.isSome_map] using congrArg Option.isSome same

theorem Revises.has (R : h.Revises v p h') (r : Ref) : h'.has r = h.has r := by
  cases r with
  | context c => exact isSome_eq_of_map_eq (R.contexts c)
  | vector w => exact isSome_eq_of_map_eq (R.vectors w)
  | string s => exact congrArg (fun t => t.contains s) R.strings
  | frame f => exact congrArg (fun t => t.contains f) R.frames
  | peer i => exact isSome_eq_of_map_eq (R.peers i)

theorem Revises.isAlive (R : h.Revises v p h') (o : Object) : h'.isAlive o = h.isAlive o := by
  rw [← has_ofObject, ← has_ofObject, R.has]

theorem Revises.peerOf (R : h.Revises v p h') (o : Object) : h'.peerOf? o = h.peerOf? o := by
  cases o with
  | vector w =>
    have same := congrArg (Option.bind · (fun fixed => fixed.2.2)) (R.vectors w)
    simp only [Option.bind_map] at same
    exact same
  | string s => exact congrArg (fun t => (t.find? s).bind (·.peer)) R.strings

theorem handleOf_congr {o : Object} (pointer : h'.peerOf? o = h.peerOf? o)
    (peers : ∀ i, h.peerOf? o = some i →
      (h'.peers.find? i).map Peer.handle = (h.peers.find? i).map Peer.handle) :
    h'.handleOf o = h.handleOf o := by
  cases hp : h.peerOf? o with
  | none => simp only [handleOf, pointer, hp, Option.bind_none]
  | some i =>
    have same := peers i hp
    simp only [handleOf, pointer, hp, Option.bind_some]
    cases hq : h.peers.find? i <;> cases hq' : h'.peers.find? i <;> simp_all

theorem map_handle_of_fixed {x y : Option Peer} (same : y.map Peer.fixed = x.map Peer.fixed) :
    y.map Peer.handle = x.map Peer.handle := by
  have handles := congrArg (Option.map Prod.fst) same
  simp only [Option.map_map] at handles
  exact handles

theorem Revises.handleOf (R : h.Revises v p h') (o : Object) : h'.handleOf o = h.handleOf o :=
  handleOf_congr (R.peerOf o) (fun i _ => map_handle_of_fixed (R.peers i))

theorem Revises.issued (R : h.Revises v p h') {o : Object} (issued : h.Issued o) : h'.Issued o := by
  cases o with
  | vector w => exact Nat.lt_of_lt_of_eq issued R.nexts.1.symm
  | string s => exact Nat.lt_of_lt_of_eq issued (congrArg Store.next R.strings).symm

/-! ### Staying formed -/

theorem contents_congr {b : Backing} (h h' : Heap) (owned : ∀ a i, b ≠ .external a i) :
    h'.contents b = h.contents b := by
  cases b with
  | external a i => exact absurd rfl (owned a i)
  | _ => rfl

/-- What a formed vector needs of the rest of the heap. -/
structure Supports (h h' : Heap) (cell : VectorCell) : Prop where
  refs : ∀ r ∈ cell.refs, h'.has r = true
  peers : ∀ i q, cell.peer = some i → h.peers.find? i = some q → h'.peers.find? i = some q
  sentinels : ∀ a, h.sentinelOf? cell.context = some a → h'.sentinelOf? cell.context = some a
  switches : h.isPromoted cell.context cell.type = true → h'.isPromoted cell.context cell.type = true
  buffers : ∀ b, (h.buffers.find? b).isSome = true →
    (h'.buffers.find? b).map ForeignBuffer.extent = (h.buffers.find? b).map ForeignBuffer.extent
  handles : ∀ i q o, cell.peer = some i → h.peers.find? i = some q → o ∈ q.pins →
    (h.handleOf o).isSome = true → h'.handleOf o = h.handleOf o

theorem Backed.transport {cell : VectorCell} {b : Backing} (B : h.Backed cell b)
    (sentinels : ∀ a, h.sentinelOf? cell.context = some a → h'.sentinelOf? cell.context = some a)
    (buffers : ∀ b, (h.buffers.find? b).isSome = true →
      (h'.buffers.find? b).map ForeignBuffer.extent =
        (h.buffers.find? b).map ForeignBuffer.extent) : h'.Backed cell b := by
  cases b with
  | unallocated => exact B
  | empty a => exact ⟨B.1, sentinels a B.2.1, B.2.2⟩
  | owned a bytes => exact B
  | external a i =>
    obtain ⟨nonzero, inline, foreign, found, address, size⟩ := B
    have same := buffers i (by rw [found]; rfl)
    rw [found] at same
    obtain ⟨foreign', found', extent⟩ := Option.map_eq_some_iff.mp same
    have address' : foreign'.address = foreign.address := congrArg Prod.fst extent
    have size' : foreign'.bytes.length = foreign.bytes.length := congrArg Prod.snd extent
    exact ⟨nonzero, inline, foreign', found', address'.trans address, size'.symm ▸ size⟩

theorem Pinned.transport {cell : VectorCell} {q : Peer} (P : h.Pinned cell q)
    (owned : ∀ a i, q.backing ≠ .external a i)
    (handles : ∀ o ∈ q.pins, (h.handleOf o).isSome = true → h'.handleOf o = h.handleOf o) :
    h'.Pinned cell q where
  count := P.count
  typed := P.typed
  word i o pin := by
    obtain ⟨some, word⟩ := P.word i o pin
    rw [handles o (List.mem_of_getElem? pin) some, contents_congr h h' owned]
    exact ⟨some, word⟩

theorem Backed.not_external {cell : VectorCell} {b : Backing} (B : h.Backed cell b)
    (indirect : cell.type.isIndirect = true) (a : Address) (i : BufferId) : b ≠ .external a i := by
  rintro rfl
  exact absurd B.2.1 (by rw [indirect]; decide)

theorem VectorFormed.transport {w : VectorId} {cell : VectorCell} (F : h.VectorFormed w cell)
    (S : h.Supports h' cell) : h'.VectorFormed w cell where
  refs := S.refs
  window := F.window
  peer i q' hi hq' := by
    obtain ⟨q, hq⟩ := has_peer_iff.mp (F.refs _ (mem_vector_refs.mpr (.inr (.inl ⟨i, hi, rfl⟩))))
    have same := (S.peers i q hi hq).symm.trans hq'
    cases same
    exact F.peer i q' hi hq
  managed b hb := {
    F.managed b hb with
    bare := fun i q' hi hq' => by
      obtain ⟨q, hq⟩ := has_peer_iff.mp (F.refs _ (mem_vector_refs.mpr (.inr (.inl ⟨i, hi, rfl⟩))))
      have same := (S.peers i q hi hq).symm.trans hq'
      cases same
      exact (F.managed b hb).bare i q' hi hq }
  native none := by
    obtain ⟨i, q, hi, hq, N⟩ := F.native none
    refine ⟨i, q, hi, S.peers i q hi hq, { N with
      backed := ?_, switched := S.switches N.switched, indirect := ?_ }⟩
    · exact N.backed.transport S.sentinels S.buffers
    · exact fun indirect => (N.indirect indirect).transport (N.backed.not_external indirect)
        (fun o pin => S.handles i q o hi hq pin)

theorem exists_of_map_eq {α β : Type} {x y : Option α} {key : α → β} {a : α}
    (same : y.map key = x.map key) (found : y = some a) : ∃ b, x = some b ∧ key a = key b := by
  rw [found] at same
  obtain ⟨b, hb, hkey⟩ := Option.map_eq_some_iff.mp same.symm
  exact ⟨b, hb, hkey.symm⟩

theorem StringFormed.transport {s : StringId} {cell : StringCell} (F : h.StringFormed s cell)
    (refs : ∀ r ∈ cell.refs, h'.has r = true) (issued : h.contexts.next ≤ h'.contexts.next)
    (peers : ∀ i q, cell.peer = some i → h.peers.find? i = some q → h'.peers.find? i = some q) :
    h'.StringFormed s cell where
  refs := refs
  issued := Nat.lt_of_lt_of_le F.issued issued
  peer i q' hi hq' := by
    obtain ⟨q, hq⟩ := has_peer_iff.mp (F.refs _ (mem_string_refs.mpr ⟨i, hi, rfl⟩))
    have same := (peers i q hi hq).symm.trans hq'
    cases same
    exact F.peer i q' hi hq

theorem refs_of_accounts {ctx ctx' : Context} (same : ctx'.accounts = ctx.accounts) :
    ctx'.refs = ctx.refs := by
  have peers : ctx'.registry.peers = ctx.registry.peers := congrArg Accounts.peers same
  have queue : ctx'.reclaimer.queue = ctx.reclaimer.queue := congrArg (·.reclaimer.queue) same
  have naString : ctx'.naString = ctx.naString := congrArg Accounts.naString same
  simp only [Context.refs, peers, queue, naString]

theorem Revises.contextFormed (I : h.Intact) (R : h.Revises v p h') {c : ContextId} {ctx' : Context}
    (found : h'.contexts.find? c = some ctx') : h'.ContextFormed c ctx' := by
  obtain ⟨ctx, before, same⟩ := exists_of_map_eq (R.contexts c) found
  have F := I.contexts c ctx before
  have peers : ctx'.registry.peers = ctx.registry.peers := congrArg Accounts.peers same
  refine
    { refs := fun r hr => (R.has r).trans (F.refs r (refs_of_accounts same ▸ hr))
      odd := by rw [show ctx'.registry.counter = _ from congrArg Accounts.counter same]; exact F.odd
      even := by rw [show ctx'.registry.stride = _ from congrArg Accounts.stride same]; exact F.even
      entry := ?_, queued := ?_, sentinel := ?_, naString := ?_ }
  · intro k i q' entry hq'
    obtain ⟨q, hq, fixed⟩ := exists_of_map_eq (R.peers i) hq'
    rw [Registry.peer?, peers] at entry
    exact (congrArg Prod.fst fixed).trans (F.entry k i q entry hq)
  · intro i q' hi hq'
    obtain ⟨q, hq, fixed⟩ := exists_of_map_eq (R.peers i) hq'
    rw [show ctx'.reclaimer.queue = _ from congrArg (·.reclaimer.queue) same] at hi
    rw [R.isAlive, show q'.owner = q.owner from congrArg (fun f => f.2.1) fixed]
    exact F.queued i q hi hq
  · intro a ha
    rcases R.sentinel c a (Option.bind_eq_some_iff.mpr ⟨ctx', found, ha⟩) with h | h
    · obtain ⟨old, hold, ha⟩ := Option.bind_eq_some_iff.mp h
      rw [before] at hold
      cases hold
      exact F.sentinel a ha
    · exact h
  · intro s cell hs hcell
    rw [show ctx'.naString = _ from congrArg Accounts.naString same] at hs
    rw [R.strings] at hcell
    exact F.naString s cell hs hcell

/-- A heap stays intact when the revised vector and peer are formed afterwards. The peer is that of
the revised vector, or of a string. -/
theorem Revises.intact (I : h.Intact) (R : h.Revises v p h')
    (mine : ∀ w i, p = some i → h.peerOf? (.vector w) = some i → v = some w)
    (vector : ∀ w cell', v = some w → h'.vectors.find? w = some cell' → h'.VectorFormed w cell')
    (peer : ∀ i q', p = some i → h'.peers.find? i = some q' → ∀ r ∈ q'.refs, h.has r = true)
    (string : ∀ s cell i, p = some i → h.strings.find? s = some cell → cell.peer = some i →
      h'.StringFormed s cell) : h'.Intact where
  vectors w cell' found := by
    by_cases hv : v = some w
    · exact vector w cell' hv found
    · rw [R.vector w hv] at found
      have F := I.vectors w cell' found
      refine F.transport ⟨fun r hr => (R.has r).trans (F.refs r hr), ?_, R.sentinels _,
        R.switches _ _, fun b _ => R.buffers b, fun _ _ o _ _ _ _ => R.handleOf o⟩
      intro i q hi hq
      have other : p ≠ some i := fun hp =>
        hv (mine w i hp (Option.bind_eq_some_iff.mpr ⟨cell', found, hi⟩))
      exact (R.peer i other).trans hq
  strings s cell found := by
    rw [R.strings] at found
    have F := I.strings s cell found
    by_cases own : ∃ i, p = some i ∧ cell.peer = some i
    · obtain ⟨i, hp, hi⟩ := own
      exact string s cell i hp found hi
    · refine F.transport (fun r hr => (R.has r).trans (F.refs r hr))
        (Nat.le_of_eq R.nexts.2.1.symm) ?_
      intro i q hi hq
      exact (R.peer i (fun hp => own ⟨i, hp, hi⟩)).trans hq
  peers i q' found := by
    obtain ⟨q, hq, fixed⟩ := exists_of_map_eq (R.peers i) found
    have F := I.peers i q hq
    have odd : q'.handle.raw.toNat % 2 = 1 := by
      rw [show q'.handle = q.handle from congrArg Prod.fst fixed]; exact F.odd
    have issued : h'.Issued q'.owner := by
      rw [show q'.owner = q.owner from congrArg (fun f => f.2.1) fixed]; exact R.issued F.issued
    by_cases hp : p = some i
    · exact ⟨fun r hr => (R.has r).trans (peer i q' hp found r hr), odd, issued⟩
    · rw [R.peer i hp, hq] at found
      cases found
      exact ⟨fun r hr => (R.has r).trans (F.refs r hr), odd, issued⟩
  contexts c ctx found := R.contextFormed I found
  frames f b name value found bound r hr := by
    rw [R.frames] at found
    exact (R.has r).trans (I.frames f b name value found bound r hr)
  buffers b foreign found := by
    obtain ⟨old, hold, extent⟩ := exists_of_map_eq (R.buffers b) found
    rw [show foreign.address = old.address from congrArg Prod.fst extent]
    exact I.buffers b old hold

theorem Revises.intact_vector {w : VectorId} {cell : VectorCell} (I : h.Intact)
    (found : h.vectors.find? w = some cell) (R : h.Revises (some w) cell.peer h')
    (vector : ∀ cell', h'.vectors.find? w = some cell' → h'.VectorFormed w cell')
    (pins : ∀ i q', cell.peer = some i → h'.peers.find? i = some q' →
      ∀ r ∈ q'.refs, h.has r = true) : h'.Intact := by
  have pointer : ∀ i, cell.peer = some i → h.peerOf? (.vector w) = some i := fun i hi =>
    Option.bind_eq_some_iff.mpr ⟨cell, found, hi⟩
  refine R.intact I ?_ ?_ ?_ ?_
  · intro w' i hi hw'
    exact congrArg some (Object.vector.inj (I.owner_unique (pointer i hi) hw'))
  · intro w' cell' hw' found'
    cases hw'
    exact vector cell' found'
  · exact pins
  · intro s cell' i hi hs hi'
    have pointer' : h.peerOf? (.string s) = some i := Option.bind_eq_some_iff.mpr ⟨cell', hs, hi'⟩
    exact absurd (I.owner_unique (pointer i hi) pointer') (by simp)

theorem Revises.intact_context (I : h.Intact) (R : h.Revises none none h') : h'.Intact :=
  R.intact I (fun _ _ none => absurd none (by simp)) (fun _ _ none => absurd none (by simp))
    (fun _ _ none => absurd none (by simp)) (fun _ _ _ none => absurd none (by simp))

end Heap
end VectorHeap
