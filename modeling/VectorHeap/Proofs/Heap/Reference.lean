import VectorHeap.Heap.Collection

/-! Strong references: which objects a reference finds, which references a heap holds, and which
objects are dead. -/
namespace VectorHeap

namespace Heap

def has (h : Heap) : Ref → Bool
  | .context c => h.contexts.contains c
  | .vector v => h.vectors.contains v
  | .string s => h.strings.contains s
  | .frame f => h.frames.contains f
  | .peer p => h.peers.contains p

def contextOf? (h : Heap) : Object → Option ContextId
  | .vector v => (h.vectors.find? v).map (·.context)
  | .string s => (h.strings.find? s).map (·.context)

variable {h : Heap}

theorem has_context_iff {c : ContextId} :
    h.has (.context c) = true ↔ ∃ ctx, h.contexts.find? c = some ctx := h.contexts.contains_iff c

theorem has_vector_iff {v : VectorId} :
    h.has (.vector v) = true ↔ ∃ cell, h.vectors.find? v = some cell := h.vectors.contains_iff v

theorem has_string_iff {s : StringId} :
    h.has (.string s) = true ↔ ∃ cell, h.strings.find? s = some cell := h.strings.contains_iff s

theorem has_frame_iff {f : FrameId} :
    h.has (.frame f) = true ↔ ∃ b, h.frames.find? f = some b := h.frames.contains_iff f

theorem has_peer_iff {p : PeerId} :
    h.has (.peer p) = true ↔ ∃ q, h.peers.find? p = some q := h.peers.contains_iff p

theorem has_ofObject (o : Object) : h.has (.ofObject o) = h.isAlive o := by cases o <;> rfl

theorem peerOf_vector {v : VectorId} {cell : VectorCell} (found : h.vectors.find? v = some cell) :
    h.peerOf? (.vector v) = cell.peer := by
  rw [peerOf?, found]
  rfl

theorem peerOf_string {s : StringId} {cell : StringCell} (found : h.strings.find? s = some cell) :
    h.peerOf? (.string s) = cell.peer := by
  rw [peerOf?, found]
  rfl

theorem isAlive_iff_contextOf {o : Object} :
    h.isAlive o = true ↔ ∃ c, h.contextOf? o = some c := by
  cases o with
  | vector v =>
    rw [isAlive, h.vectors.contains_iff]
    simp only [contextOf?, Option.map_eq_some_iff]
    constructor
    · rintro ⟨cell, found⟩
      exact ⟨_, cell, found, rfl⟩
    · rintro ⟨_, cell, found, _⟩
      exact ⟨cell, found⟩
  | string s =>
    rw [isAlive, h.strings.contains_iff]
    simp only [contextOf?, Option.map_eq_some_iff]
    constructor
    · rintro ⟨cell, found⟩
      exact ⟨_, cell, found, rfl⟩
    · rintro ⟨_, cell, found, _⟩
      exact ⟨cell, found⟩

/-! ### References that are held -/

theorem mem_refs_iff {r : Ref} :
    r ∈ h.refs ↔ (∃ v cell, h.vectors.find? v = some cell ∧ r ∈ cell.refs) ∨
      (∃ s cell, h.strings.find? s = some cell ∧ r ∈ cell.refs) ∨
      (∃ p q, h.peers.find? p = some q ∧ r ∈ q.refs) ∨
      (∃ c ctx, h.contexts.find? c = some ctx ∧ r ∈ ctx.refs) ∨
      (∃ f b, h.frames.find? f = some b ∧ ∃ name value, b.find? name = some value ∧ r ∈ value.refs) := by
  simp only [refs, List.mem_append, List.mem_flatMap, Store.mem_values_iff, Table.mem_values_iff,
    or_assoc]
  constructor
  · rintro (⟨a, ⟨i, hi⟩, hr⟩ | ⟨a, ⟨i, hi⟩, hr⟩ | ⟨a, ⟨i, hi⟩, hr⟩ | ⟨a, ⟨i, hi⟩, hr⟩ |
      ⟨b, ⟨i, hi⟩, a, ⟨n, hn⟩, hr⟩)
    · exact .inl ⟨i, a, hi, hr⟩
    · exact .inr (.inl ⟨i, a, hi, hr⟩)
    · exact .inr (.inr (.inl ⟨i, a, hi, hr⟩))
    · exact .inr (.inr (.inr (.inl ⟨i, a, hi, hr⟩)))
    · exact .inr (.inr (.inr (.inr ⟨i, b, hi, n, a, hn, hr⟩)))
  · rintro (⟨i, a, hi, hr⟩ | ⟨i, a, hi, hr⟩ | ⟨i, a, hi, hr⟩ | ⟨i, a, hi, hr⟩ |
      ⟨i, b, hi, n, a, hn, hr⟩)
    · exact .inl ⟨a, ⟨i, hi⟩, hr⟩
    · exact .inr (.inl ⟨a, ⟨i, hi⟩, hr⟩)
    · exact .inr (.inr (.inl ⟨a, ⟨i, hi⟩, hr⟩))
    · exact .inr (.inr (.inr (.inl ⟨a, ⟨i, hi⟩, hr⟩)))
    · exact .inr (.inr (.inr (.inr ⟨b, ⟨i, hi⟩, a, ⟨n, hn⟩, hr⟩)))

theorem mem_buffer_refs {b : Buffer} {r : Ref} :
    r ∈ b.refs ↔ ∃ e ∈ b.slots, ∃ o, e.object? = some o ∧ r = .ofObject o := by
  simp only [Buffer.refs, List.mem_map, List.mem_filterMap]
  constructor
  · rintro ⟨o, ⟨e, he, ho⟩, rfl⟩
    exact ⟨e, he, o, ho, rfl⟩
  · rintro ⟨e, he, o, ho, rfl⟩
    exact ⟨o, ⟨e, he, ho⟩, rfl⟩

theorem mem_vector_refs {cell : VectorCell} {r : Ref} :
    r ∈ cell.refs ↔ r = .context cell.context ∨ (∃ p, cell.peer = some p ∧ r = .peer p) ∨
      ∃ b, cell.buffer = some b ∧ r ∈ b.refs := by
  simp only [VectorCell.refs, List.mem_cons, List.mem_append, List.mem_map, List.mem_flatMap,
    Option.mem_toList]
  constructor
  · rintro (h | ⟨p, hp, rfl⟩ | h)
    · exact .inl h
    · exact .inr (.inl ⟨p, hp, rfl⟩)
    · exact .inr (.inr h)
  · rintro (h | ⟨p, hp, rfl⟩ | h)
    · exact .inl h
    · exact .inr (.inl ⟨p, hp, rfl⟩)
    · exact .inr (.inr h)

theorem mem_string_refs {cell : StringCell} {r : Ref} :
    r ∈ cell.refs ↔ ∃ p, cell.peer = some p ∧ r = .peer p := by
  simp only [StringCell.refs, List.mem_map, Option.mem_toList, eq_comm]

theorem mem_peer_refs {q : Peer} {r : Ref} : r ∈ q.refs ↔ ∃ o ∈ q.pins, r = .ofObject o := by
  simp only [Peer.refs, List.mem_map, eq_comm]

theorem mem_context_refs {ctx : Context} {r : Ref} :
    r ∈ ctx.refs ↔ (∃ s, ctx.naString = some s ∧ r = .string s) ∨
      (∃ k p, ctx.registry.peer? k = some p ∧ r = .peer p) ∨
      ∃ p ∈ ctx.reclaimer.queue, r = .peer p := by
  simp only [Context.refs, List.mem_append, List.mem_map, Option.mem_toList, Table.mem_values_iff,
    Registry.peer?, or_assoc]
  constructor
  · rintro (⟨s, hs, rfl⟩ | ⟨p, ⟨k, hk⟩, rfl⟩ | ⟨p, hp, rfl⟩)
    · exact .inl ⟨s, hs, rfl⟩
    · exact .inr (.inl ⟨k, p, hk, rfl⟩)
    · exact .inr (.inr ⟨p, hp, rfl⟩)
  · rintro (⟨s, hs, rfl⟩ | ⟨k, p, hk, rfl⟩ | ⟨p, hp, rfl⟩)
    · exact .inl ⟨s, hs, rfl⟩
    · exact .inr (.inl ⟨p, ⟨k, hk⟩, rfl⟩)
    · exact .inr (.inr ⟨p, hp, rfl⟩)

/-! ### The dead -/

theorem mem_unheld {k : Kind} {ids held : List (Id k)} {i : Id k} :
    i ∈ unheld ids held ↔ i ∈ ids ∧ i ∉ held := by
  simp only [unheld, List.mem_filter, Bool.not_eq_true', ← Bool.not_eq_true, List.contains_iff_mem]

theorem mem_filterMap_kind {α : Type} {rs : List Ref} {a : α} {kind? : Ref → Option α} {mk : α → Ref}
    (back : ∀ r, kind? r = some a ↔ r = mk a) : a ∈ rs.filterMap kind? ↔ mk a ∈ rs := by
  simp only [List.mem_filterMap, back]
  exact ⟨fun ⟨_, hr, he⟩ => he ▸ hr, fun h => ⟨_, h, rfl⟩⟩

/-- The dead are those that nothing holds. A context waits for its reclaimer. -/
theorem mem_dead_iff {roots : List Ref} {r : Ref} :
    r ∈ h.dead roots ↔ h.has r = true ∧ r ∉ roots ∧ r ∉ h.refs ∧
      ∀ c, r = .context c → h.isIdle c = true := by
  have context : ∀ (c : ContextId) (r : Ref), r.context? = some c ↔ r = .context c := by
    intro c r; cases r <;> simp [Ref.context?]
  have vector : ∀ (v : VectorId) (r : Ref), r.vector? = some v ↔ r = .vector v := by
    intro v r; cases r <;> simp [Ref.vector?]
  have string : ∀ (s : StringId) (r : Ref), r.string? = some s ↔ r = .string s := by
    intro s r; cases r <;> simp [Ref.string?]
  have frame : ∀ (f : FrameId) (r : Ref), r.frame? = some f ↔ r = .frame f := by
    intro f r; cases r <;> simp [Ref.frame?]
  have peer : ∀ (p : PeerId) (r : Ref), r.peer? = some p ↔ r = .peer p := by
    intro p r; cases r <;> simp [Ref.peer?]
  simp only [dead, List.mem_append, List.mem_map, List.mem_filter, mem_unheld, Store.mem_ids_iff,
    mem_filterMap_kind (context _), mem_filterMap_kind (vector _), mem_filterMap_kind (string _),
    mem_filterMap_kind (frame _), mem_filterMap_kind (peer _), not_or]
  cases r with
  | context c =>
    simp only [has_context_iff, Ref.context.injEq, reduceCtorEq, and_false, exists_false, or_false,
      exists_eq_right, forall_eq']
    rw [and_assoc, and_assoc]
  | vector v => simp [has_vector_iff]
  | string s => simp [has_string_iff]
  | frame f => simp [has_frame_iff]
  | peer p => simp [has_peer_iff]

end Heap
end VectorHeap
