import VectorHeap.Proofs.Heap.Reference
import VectorHeap.Proofs.Native.Slots

/-! What every operation keeps true of a heap, whatever became of it.
A vector has either a managed buffer or native contents; lengths, sizes, pins and handles that are
kept twice agree; every reference that is held finds its object; and only peers of dead objects wait
for release. Nothing here depends on a handle being drawn only once. -/
namespace VectorHeap

namespace Heap

def sentinelOf? (h : Heap) (c : ContextId) : Option Address :=
  (h.contexts.find? c).bind (·.sentinel)

def isPromoted (h : Heap) (c : ContextId) (type : ElemType) : Bool :=
  (h.contexts.find? c).any (·.switches.isPromoted type)

/-- Where native contents of a vector may be, and how large they are. -/
def Backed (h : Heap) (cell : VectorCell) : Backing → Prop
  | .unallocated => False
  | .empty address =>
    address ≠ 0 ∧ h.sentinelOf? cell.context = some address ∧ cell.capacity = 0
  | .owned address bytes =>
    address ≠ 0 ∧ bytes.length = cell.type.nativeWidth * cell.capacity ∧ 0 < bytes.length
  | .external address b =>
    address ≠ 0 ∧ cell.type.isIndirect = false ∧ ∃ foreign, h.buffers.find? b = some foreign ∧
      foreign.address = address ∧ cell.type.nativeWidth * cell.capacity ≤ foreign.bytes.length

/-- Each slot of indirect contents holds the handle of its pin. -/
structure Pinned (h : Heap) (cell : VectorCell) (q : Peer) : Prop where
  count : q.pins.length = cell.capacity
  typed : ∀ o ∈ q.pins, o.toElem.type = cell.type
  word : ∀ i o, q.pins[i]? = some o → (h.handleOf o).isSome = true ∧
    (h.contents q.backing).slot 8 i = Op.handleBytes (h.handleOf o)

/-- The peer of a native vector has its contents. -/
structure Native (h : Heap) (cell : VectorCell) (q : Peer) : Prop where
  length : q.length = cell.length
  capacity : q.capacity = cell.capacity
  backed : h.Backed cell q.backing
  switched : h.isPromoted cell.context cell.type = true
  indirect : cell.type.isIndirect = true → h.Pinned cell q
  inline : cell.type.isIndirect = false → q.pins = []

/-- The buffer of a managed vector has all its slots, and a peer that it may have no contents. -/
structure Managed (h : Heap) (cell : VectorCell) (b : Buffer) : Prop where
  type : b.type = cell.type
  capacity : b.capacity = cell.capacity
  bare : ∀ p q, cell.peer = some p → h.peers.find? p = some q →
    q.backing = .unallocated ∧ q.pins = []

structure VectorFormed (h : Heap) (v : VectorId) (cell : VectorCell) : Prop where
  refs : ∀ r ∈ cell.refs, h.has r = true
  window : cell.length ≤ cell.capacity
  peer : ∀ p q, cell.peer = some p → h.peers.find? p = some q →
    q.owner = .vector v ∧ q.released = false
  managed : ∀ b, cell.buffer = some b → h.Managed cell b
  native : cell.buffer = none →
    ∃ p q, cell.peer = some p ∧ h.peers.find? p = some q ∧ h.Native cell q

structure StringFormed (h : Heap) (s : StringId) (cell : StringCell) : Prop where
  refs : ∀ r ∈ cell.refs, h.has r = true
  issued : cell.context.index < h.contexts.next
  peer : ∀ p q, cell.peer = some p → h.peers.find? p = some q →
    q.owner = .string s ∧ q.released = false ∧ q.pins = [] ∧
      (q.backing = .unallocated ∨ ∃ address bytes, q.backing = .owned address bytes ∧ address ≠ 0 ∧
        bytes.length = (Utf8.encode cell.text).length + 1)

/-- The identity of an object was given out, so no other object will have it. -/
def Issued (h : Heap) : Object → Prop
  | .vector v => v.index < h.vectors.next
  | .string s => s.index < h.strings.next

structure PeerFormed (h : Heap) (q : Peer) : Prop where
  refs : ∀ r ∈ q.refs, h.has r = true
  odd : q.handle.raw.toNat % 2 = 1
  issued : h.Issued q.owner

structure ContextFormed (h : Heap) (c : ContextId) (ctx : Context) : Prop where
  refs : ∀ r ∈ ctx.refs, h.has r = true
  odd : ctx.registry.counter.toNat % 2 = 1
  even : ctx.registry.stride.toNat % 2 = 0
  entry : ∀ k p q, ctx.registry.peer? k = some p → h.peers.find? p = some q → q.handle = k
  queued : ∀ p q, p ∈ ctx.reclaimer.queue → h.peers.find? p = some q → h.isAlive q.owner = false
  sentinel : ∀ address, ctx.sentinel = some address → address ≠ 0
  naString : ∀ s cell, ctx.naString = some s → h.strings.find? s = some cell →
    cell.context = c ∧ cell.isNA = true

structure Intact (h : Heap) : Prop where
  vectors : ∀ v cell, h.vectors.find? v = some cell → h.VectorFormed v cell
  strings : ∀ s cell, h.strings.find? s = some cell → h.StringFormed s cell
  peers : ∀ p q, h.peers.find? p = some q → h.PeerFormed q
  contexts : ∀ c ctx, h.contexts.find? c = some ctx → h.ContextFormed c ctx
  frames : ∀ f b name value, h.frames.find? f = some b → b.find? name = some value →
    ∀ r ∈ value.refs, h.has r = true
  buffers : ∀ b foreign, h.buffers.find? b = some foreign → foreign.address ≠ 0

variable {h : Heap}

theorem Intact.has_of_mem_refs (I : h.Intact) {r : Ref} (held : r ∈ h.refs) : h.has r = true := by
  rcases mem_refs_iff.mp held with ⟨v, cell, found, hr⟩ | ⟨s, cell, found, hr⟩ | ⟨p, q, found, hr⟩ |
    ⟨c, ctx, found, hr⟩ | ⟨f, b, found, name, value, bound, hr⟩
  · exact (I.vectors v cell found).refs r hr
  · exact (I.strings s cell found).refs r hr
  · exact (I.peers p q found).refs r hr
  · exact (I.contexts c ctx found).refs r hr
  · exact I.frames f b name value found bound r hr

theorem Intact.context_of_vector (I : h.Intact) {v : VectorId} {cell : VectorCell}
    (found : h.vectors.find? v = some cell) : ∃ ctx, h.contexts.find? cell.context = some ctx :=
  has_context_iff.mp ((I.vectors v cell found).refs _ (mem_vector_refs.mpr (.inl rfl)))

theorem Intact.peer_of_vector (I : h.Intact) {v : VectorId} {cell : VectorCell} {p : PeerId}
    (found : h.vectors.find? v = some cell) (hp : cell.peer = some p) :
    ∃ q, h.peers.find? p = some q ∧ q.owner = .vector v ∧ q.released = false := by
  have F := I.vectors v cell found
  obtain ⟨q, hq⟩ := has_peer_iff.mp (F.refs _ (mem_vector_refs.mpr (.inr (.inl ⟨p, hp, rfl⟩))))
  exact ⟨q, hq, F.peer p q hp hq⟩

theorem Intact.peer_of_string (I : h.Intact) {s : StringId} {cell : StringCell} {p : PeerId}
    (found : h.strings.find? s = some cell) (hp : cell.peer = some p) :
    ∃ q, h.peers.find? p = some q ∧ q.owner = .string s ∧ q.released = false := by
  have F := I.strings s cell found
  obtain ⟨q, hq⟩ := has_peer_iff.mp (F.refs _ (mem_string_refs.mpr ⟨p, hp, rfl⟩))
  exact ⟨q, hq, (F.peer p q hp hq).1, (F.peer p q hp hq).2.1⟩

theorem Intact.peer_of_object (I : h.Intact) {o : Object} {p : PeerId} (hp : h.peerOf? o = some p) :
    ∃ q, h.peers.find? p = some q ∧ q.owner = o ∧ q.released = false := by
  cases o with
  | vector v =>
    obtain ⟨cell, found, hp⟩ := Option.bind_eq_some_iff.mp hp
    exact I.peer_of_vector found hp
  | string s =>
    obtain ⟨cell, found, hp⟩ := Option.bind_eq_some_iff.mp hp
    exact I.peer_of_string found hp

theorem Intact.owner_unique (I : h.Intact) {o o' : Object} {p : PeerId}
    (hp : h.peerOf? o = some p) (hp' : h.peerOf? o' = some p) : o = o' := by
  obtain ⟨q, found, owner, _⟩ := I.peer_of_object hp
  obtain ⟨q', found', owner', _⟩ := I.peer_of_object hp'
  rw [found] at found'
  cases found'
  exact owner.symm.trans owner'

theorem handleOf_eq {o : Object} {p : PeerId} {q : Peer} (hp : h.peerOf? o = some p)
    (hq : h.peers.find? p = some q) : h.handleOf o = q.handle := by
  simp only [handleOf, hp, Option.bind_some, hq]

theorem backingOf_eq {o : Object} {p : PeerId} {q : Peer} (hp : h.peerOf? o = some p)
    (hq : h.peers.find? p = some q) : h.backingOf o = q.backing := by
  simp only [backingOf, hp, Option.bind_some, hq]

theorem isSome_of_odd {k : Handle} (odd : k.raw.toNat % 2 = 1) : k.isSome = true := by
  simp only [Handle.isSome, bne_iff_ne, ne_eq]
  intro zero
  simp [zero] at odd

theorem Intact.handleOf_isSome (I : h.Intact) {o : Object} {p : PeerId}
    (hp : h.peerOf? o = some p) : (h.handleOf o).isSome = true := by
  obtain ⟨q, hq, _⟩ := I.peer_of_object hp
  rw [handleOf_eq hp hq]
  exact isSome_of_odd (I.peers p q hq).odd

theorem peerOf_of_handleOf {o : Object} (some : (h.handleOf o).isSome = true) :
    ∃ p q, h.peerOf? o = .some p ∧ h.peers.find? p = .some q ∧ h.handleOf o = q.handle := by
  cases hp : h.peerOf? o with
  | none => simp [handleOf, hp, Handle.isSome, Handle.none] at some
  | some p =>
    cases hq : h.peers.find? p with
    | none => simp [handleOf, hp, hq, Handle.isSome, Handle.none] at some
    | some q => exact ⟨p, q, rfl, hq, handleOf_eq hp hq⟩

end Heap
end VectorHeap
