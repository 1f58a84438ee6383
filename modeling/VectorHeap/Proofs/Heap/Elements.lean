import VectorHeap.Proofs.Heap.Growth
import VectorHeap.Proofs.Sequence

/-! What a vector is to its users: a sequence of elements, wherever the elements are.
The sequence of a managed vector is its buffer. That of a native one is decoded from its contents, or
read off its pins. -/
namespace VectorHeap

namespace Heap

def nativeElements (h : Heap) (cell : VectorCell) (q : Peer) : List Elem :=
  match InlineType.ofElemType? cell.type with
  | some t => (t.decodeAll cell.capacity (h.contents q.backing)).map (Elem.ofValue t)
  | none => q.pins.map Object.toElem

def elements (h : Heap) (cell : VectorCell) : List Elem :=
  match cell.buffer with
  | some b => b.slots
  | none =>
    match cell.peer.bind h.peers.find? with
    | some q => h.nativeElements cell q
    | none => []

def sequence (h : Heap) (cell : VectorCell) : Sequence :=
  ⟨cell.type, h.elements cell, cell.length, cell.complete, cell.sharing⟩

def sequence? (h : Heap) (v : VectorId) : Option Sequence := (h.vectors.find? v).map h.sequence

/-- The foreign buffer that a vector reads and writes in place. -/
def foreign? (h : Heap) (v : VectorId) : Option BufferId :=
  match h.backingOf (.vector v) with
  | .external _ b => some b
  | _ => none

variable {h h' : Heap} {cell : VectorCell} {b : Buffer} {v : VectorId}

theorem elements_managed (managed : cell.buffer = some b) : h.elements cell = b.slots := by
  simp only [elements, managed]

theorem elements_native {p : PeerId} {q : Peer} (native : cell.buffer = none)
    (hp : cell.peer = some p) (hq : h.peers.find? p = some q) :
    h.elements cell = h.nativeElements cell q := by
  simp only [elements, native, hp, Option.bind_some, hq]

theorem nativeElements_inline {q : Peer} {t : InlineType}
    (inline : InlineType.ofElemType? cell.type = some t) :
    h.nativeElements cell q =
      (t.decodeAll cell.capacity (h.contents q.backing)).map (Elem.ofValue t) := by
  simp only [nativeElements, inline]

theorem ofElemType_eq_some {type : ElemType} {t : InlineType}
    (inline : InlineType.ofElemType? type = some t) :
    type = t.elemType ∧ type.isIndirect = false := by
  cases type <;> cases inline <;> exact ⟨rfl, rfl⟩

theorem ofElemType_eq_none {type : ElemType} :
    InlineType.ofElemType? type = none ↔ type.isIndirect = true := by
  cases type <;> simp [InlineType.ofElemType?, ElemType.isIndirect]

theorem ofElemType_of_direct {type : ElemType} (direct : type.isIndirect = false) :
    ∃ t, InlineType.ofElemType? type = some t := by
  cases inline : InlineType.ofElemType? type with
  | some t => exact ⟨t, rfl⟩
  | none => exact absurd (direct.symm.trans (ofElemType_eq_none.mp inline)) (by decide)

theorem nativeElements_indirect {q : Peer} (indirect : cell.type.isIndirect = true) :
    h.nativeElements cell q = q.pins.map Object.toElem := by
  simp only [nativeElements, ofElemType_eq_none.mpr indirect]

theorem Native.length_elements {q : Peer} (N : h.Native cell q) :
    (h.nativeElements cell q).length = cell.capacity := by
  cases inline : InlineType.ofElemType? cell.type with
  | some t => rw [nativeElements_inline inline, List.length_map, InlineType.length_decodeAll]
  | none =>
    have indirect := ofElemType_eq_none.mp inline
    rw [nativeElements_indirect indirect, List.length_map, (N.indirect indirect).count]

theorem Native.type_elements {q : Peer} (N : h.Native cell q) {e : Elem}
    (he : e ∈ h.nativeElements cell q) : e.type = cell.type := by
  cases inline : InlineType.ofElemType? cell.type with
  | some t =>
    rw [nativeElements_inline inline] at he
    obtain ⟨x, _, rfl⟩ := List.mem_map.mp he
    exact (Elem.type_ofValue t x).trans (ofElemType_eq_some inline).1.symm
  | none =>
    have indirect := ofElemType_eq_none.mp inline
    rw [nativeElements_indirect indirect] at he
    obtain ⟨o, ho, rfl⟩ := List.mem_map.mp he
    exact (N.indirect indirect).typed o ho

theorem object_ofValue (t : InlineType) (x : t.Value) : (Elem.ofValue t x).object? = none := by
  cases t <;> rfl

namespace VectorFormed

theorem length_elements (F : h.VectorFormed v cell) : (h.elements cell).length = cell.capacity := by
  cases hb : cell.buffer with
  | some b => rw [elements_managed hb]; exact (F.managed b hb).capacity
  | none =>
    obtain ⟨p, q, hp, hq, N⟩ := F.native hb
    rw [elements_native hb hp hq, N.length_elements]

theorem length_le_elements (F : h.VectorFormed v cell) :
    cell.length ≤ (h.elements cell).length :=
  Nat.le_trans F.window (Nat.le_of_eq F.length_elements.symm)

theorem type_elements (F : h.VectorFormed v cell) {e : Elem} (he : e ∈ h.elements cell) :
    e.type = cell.type := by
  cases hb : cell.buffer with
  | some b =>
    rw [elements_managed hb] at he
    exact (b.typed e he).trans (F.managed b hb).type
  | none =>
    obtain ⟨p, q, hp, hq, N⟩ := F.native hb
    rw [elements_native hb hp hq] at he
    exact N.type_elements he

end VectorFormed

theorem Intact.alive_of_mem (I : h.Intact) (found : h.vectors.find? v = some cell) {e : Elem}
    {o : Object} (he : e ∈ h.elements cell) (ho : e.object? = some o) : h.isAlive o = true := by
  have F := I.vectors v cell found
  rw [← has_ofObject]
  cases hb : cell.buffer with
  | some b =>
    rw [elements_managed hb] at he
    exact F.refs _ (mem_vector_refs.mpr (.inr (.inr ⟨b, hb, mem_buffer_refs.mpr ⟨e, he, o, ho, rfl⟩⟩)))
  | none =>
    obtain ⟨p, q, hp, hq, N⟩ := F.native hb
    rw [elements_native hb hp hq] at he
    cases inline : InlineType.ofElemType? cell.type with
    | some t =>
      rw [nativeElements_inline inline] at he
      obtain ⟨x, _, rfl⟩ := List.mem_map.mp he
      exact absurd ((object_ofValue t x).symm.trans ho) (by simp)
    | none =>
      rw [nativeElements_indirect (ofElemType_eq_none.mp inline)] at he
      obtain ⟨o', ho', rfl⟩ := List.mem_map.mp he
      cases (Object.object_toElem o').symm.trans ho
      exact (I.peers p q hq).refs _ (mem_peer_refs.mpr ⟨o, ho', rfl⟩)

theorem nativeElements_congr {q : Peer} (same : h'.contents q.backing = h.contents q.backing) :
    h'.nativeElements cell q = h.nativeElements cell q := by
  simp only [nativeElements, same]

theorem contents_of_buffers {backing : Backing}
    (buffers : ∀ a b, backing = .external a b → h'.buffers.find? b = h.buffers.find? b) :
    h'.contents backing = h.contents backing := by
  cases backing with
  | external a b => simp only [contents, buffers a b rfl]
  | _ => rfl

theorem foreign_eq_some_iff {b : BufferId} : h.foreign? v = some b ↔
    ∃ cell p q a, h.vectors.find? v = some cell ∧ cell.peer = some p ∧ h.peers.find? p = some q ∧
      q.backing = .external a b := by
  constructor
  · intro found
    unfold foreign? backingOf peerOf? at found
    cases hcell : h.vectors.find? v with
    | none => simp [hcell] at found
    | some cell =>
      cases hp : cell.peer with
      | none => simp [hcell, hp] at found
      | some p =>
        cases hq : h.peers.find? p with
        | none => simp [hcell, hp, hq] at found
        | some q =>
          simp only [hcell, hp, hq, Option.bind_some] at found
          cases hbacking : q.backing with
          | external a b' =>
            simp only [hbacking, Option.some.injEq] at found
            exact ⟨cell, p, q, a, rfl, hp, hq, by rw [hbacking, found]⟩
          | _ => simp [hbacking] at found
  · rintro ⟨cell, p, q, a, hcell, hp, hq, hbacking⟩
    simp only [foreign?, backingOf, peerOf?, hcell, hp, hq, hbacking, Option.bind_some]

theorem elements_congr {p : Option PeerId} (F : h.VectorFormed v cell)
    (found : h.vectors.find? v = some cell) (kept : ∀ i, cell.peer = some i → p = some i)
    (peers : ∀ i q, cell.peer = some i → h.peers.find? i = some q → h'.peers.find? i = some q)
    (buffers : ∀ b, h.foreign? v = some b → h'.buffers.find? b = h.buffers.find? b) :
    h'.elements { cell with peer := p } = h.elements cell := by
  cases hb : cell.buffer with
  | some b => exact (elements_managed rfl).trans (elements_managed hb).symm
  | none =>
    obtain ⟨i, q, hi, hq, N⟩ := F.native hb
    rw [elements_native rfl (kept i hi) (peers i q hi hq), elements_native hb hi hq]
    refine nativeElements_congr (contents_of_buffers (fun a b external => buffers b ?_))
    exact foreign_eq_some_iff.mpr ⟨cell, i, q, a, found, hi, hq, external⟩

theorem sequence_eq_some_iff {s : Sequence} : h.sequence? v = some s ↔
    ∃ cell, h.vectors.find? v = some cell ∧ h.sequence cell = s := by
  rw [sequence?, Option.map_eq_some_iff]

theorem Intact.foreign_found (I : h.Intact) {b : BufferId} (foreign : h.foreign? v = some b) :
    ∃ f, h.buffers.find? b = some f := by
  obtain ⟨cell, p, q, a, found, hp, hq, external⟩ := foreign_eq_some_iff.mp foreign
  have F := I.vectors v cell found
  cases hbuf : cell.buffer with
  | some b' => exact absurd (((F.managed b' hbuf).bare p q hp hq).1.symm.trans external) (by simp)
  | none =>
    obtain ⟨p', q', hp', hq', N⟩ := F.native hbuf
    cases hp.symm.trans hp'
    cases hq.symm.trans hq'
    have backed := N.backed
    rw [external] at backed
    obtain ⟨_, _, f, there, _⟩ := backed
    exact ⟨f, there⟩

end Heap
end VectorHeap
