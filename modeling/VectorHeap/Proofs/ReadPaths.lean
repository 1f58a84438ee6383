import VectorHeap.Proofs.DataAddress
import VectorHeap.Proofs.Nesting

/-! All ways to read a vector agree. An element is read alone, as an element or as a value of its type,
or along with all that are in use, or it is copied and read from the copy. Where the contents are does
not matter, nor whether the handles in native slots still name anything: then all of these fail alike. -/
namespace VectorHeap

namespace Op

variable {α : Type} {h : Heap} {v : VectorId} {cell : VectorCell} {t : InlineType}

def entry (xs : List α) (i : Nat) : Op α :=
  match xs[i]? with
  | some x => pure x
  | none => fail (.indexOutOfBounds i xs.length)

theorem entry_some {xs : List α} {i : Nat} {x : α} (found : xs[i]? = some x) :
    entry xs i h = .ok x h := by
  unfold entry
  rw [found]
  rfl

theorem entry_past {xs : List α} {i : Nat} (past : xs.length ≤ i) :
    entry xs i h = .error (.error (.indexOutOfBounds i xs.length)) h := by
  unfold entry
  rw [List.getElem?_eq_none past]
  rfl

theorem entry_inside {xs : List α} {i : Nat} (inside : i < xs.length) :
    entry xs i h = .ok xs[i] h :=
  entry_some (List.getElem?_eq_getElem inside)

/-! ### Elements one by one and all at once -/

theorem getElems_eq_ok_iff (I : h.Intact) (found : h.vectors.find? v = some cell) (i n : Nat)
    (es : List Elem) : getElems v i n h = .ok es h ↔
      es.length = n ∧ ∀ k e, es[k]? = some e → getElem v (i + k) h = .ok e h := by
  induction n generalizing i es with
  | zero =>
    constructor
    · intro run
      cases run
      exact ⟨rfl, by simp⟩
    · rintro ⟨none, _⟩
      rw [List.length_eq_zero_iff.mp none]
      rfl
  | succ n ih =>
    have unfolded : getElems v i (n + 1) h =
        (getElem v i >>= fun e => getElems v (i + 1) n >>= fun es => pure (e :: es)) h := rfl
    constructor
    · intro run
      rw [unfolded] at run
      cases first : getElem v i h with
      | error f h₁ =>
        rw [bind_of_error first] at run
        exact absurd run (by simp)
      | ok e h₁ =>
        obtain ⟨rfl, _⟩ := Outcome.ok (getElem_reads I found i) first
        rw [bind_of_ok first] at run
        cases others : getElems v (i + 1) n h₁ with
        | error f h₂ =>
          rw [bind_of_error others] at run
          exact absurd run (by simp)
        | ok rest h₂ =>
          obtain ⟨rfl, _⟩ := Outcome.ok (getElems_reads I found (i + 1) n) others
          rw [bind_of_ok others] at run
          cases run
          obtain ⟨count, each⟩ := (ih (i + 1) rest).mp others
          refine ⟨congrArg Nat.succ count, fun k e' slot => ?_⟩
          cases k with
          | zero => cases slot; exact first
          | succ k =>
            rw [show i + (k + 1) = i + 1 + k by omega]
            exact each k e' slot
    · rintro ⟨count, each⟩
      obtain ⟨e, rest, rfl⟩ := List.exists_cons_of_length_eq_add_one count
      have first : getElem v i h = .ok e h := each 0 e rfl
      have others : getElems v (i + 1) n h = .ok rest h := by
        refine (ih (i + 1) rest).mpr ⟨Nat.succ.inj count, fun k e' slot => ?_⟩
        rw [show i + 1 + k = i + (k + 1) by omega]
        exact each (k + 1) e' slot
      rw [unfolded, bind_of_ok first, bind_of_ok others]
      rfl

theorem toList_eq_ok_iff (I : h.Intact) (found : h.vectors.find? v = some cell) (es : List Elem) :
    toList v h = .ok es h ↔ ∀ i, getElem v i h = entry es i h := by
  rw [toList, vector_bind found, getElems_eq_ok_iff I found]
  constructor
  · rintro ⟨count, each⟩ i
    by_cases inside : i < es.length
    · rw [entry_inside inside]
      have read := each i es[i] (List.getElem?_eq_getElem inside)
      rwa [Nat.zero_add] at read
    · have past : es.length ≤ i := Nat.le_of_not_lt inside
      rw [entry_past past, count]
      exact getElem_past found (by omega)
  · intro each
    refine ⟨?_, fun k e slot => ?_⟩
    · -- The access behind the last element in use tells how many there are.
      have last := (getElem_past found (Nat.lt_irrefl cell.length)).symm.trans (each cell.length)
      by_cases inside : cell.length < es.length
      · rw [entry_inside inside] at last
        exact absurd last (by simp)
      · rw [entry_past (Nat.le_of_not_lt inside)] at last
        simpa using last.symm
    · rw [Nat.zero_add, each k, entry_some slot]

theorem getElems_eq_error (I : h.Intact) (found : h.vectors.find? v = some cell) (i n : Nat)
    {f : Fault} (run : getElems v i n h = .error f h) :
    ∃ k < n, getElem v (i + k) h = .error f h := by
  induction n generalizing i with
  | zero => cases run
  | succ n ih =>
    change (getElem v i >>= fun e => getElems v (i + 1) n >>= fun es => pure (e :: es)) h = _ at run
    cases first : getElem v i h with
    | error f' h₁ =>
      rw [bind_of_error first] at run
      cases run
      exact ⟨0, Nat.succ_pos n, first⟩
    | ok e h₁ =>
      obtain ⟨rfl, _⟩ := Outcome.ok (getElem_reads I found i) first
      rw [bind_of_ok first] at run
      cases others : getElems v (i + 1) n h₁ with
      | ok rest h₂ =>
        rw [bind_of_ok others] at run
        exact absurd run (by simp [pure_run])
      | error f' h₂ =>
        rw [bind_of_error others] at run
        cases run
        obtain ⟨k, below, read⟩ := ih (i + 1) others
        exact ⟨k + 1, Nat.succ_lt_succ below, by rwa [show i + (k + 1) = i + 1 + k by omega]⟩

/-! ### Copies -/

/-- A copy loads native slots as accesses do. -/
theorem loadNatives_eq_getElems (I : h.Intact) (found : h.vectors.find? v = some cell)
    (native : cell.buffer = none) {p : PeerId} (hp : cell.peer = some p) (i n : Nat)
    (fits : i + n ≤ cell.length) : loadNatives cell p i n h = getElems v i n h := by
  induction n generalizing i with
  | zero => rfl
  | succ n ih =>
    have slot := getElem_native I found native hp (i := i) (by omega)
    change (loadNative cell p i >>= fun e => loadNatives cell p (i + 1) n >>= fun es =>
      pure (e :: es)) h = (getElem v i >>= fun e => getElems v (i + 1) n >>= fun es =>
      pure (e :: es)) h
    cases first : getElem v i h with
    | error f h₁ => rw [bind_of_error first, bind_of_error (slot.symm.trans first)]
    | ok e h₁ =>
      obtain ⟨rfl, _⟩ := Outcome.ok (getElem_reads I found i) first
      rw [bind_of_ok first, bind_of_ok (slot.symm.trans first), bind_run, bind_run,
        ih (i + 1) (by omega)]

theorem usedBuffer_eq_toList (I : h.Intact) (found : h.vectors.find? v = some cell) :
    Outcome (toList v) h
      (fun es h₁ => h₁ = h ∧ ∃ b, usedBuffer cell h = .ok b h ∧ b.type = cell.type ∧ b.slots = es)
      (fun f h₁ => h₁ = h ∧ usedBuffer cell h = .error f h) := by
  have F := I.vectors v cell found
  cases hb : cell.buffer with
  | some buffer =>
    have readable : h.Readable cell := fun native => absurd (hb.symm.trans native) (by simp)
    obtain ⟨b, used, type, slots⟩ := usedBuffer_run I found readable
    exact .of_ok (toList_run I found readable) ⟨rfl, b, used, type, slots⟩
  | none =>
    obtain ⟨p, q, hp, _⟩ := F.native hb
    have reads := getElems_reads I found 0 cell.length
    have loads := loadNatives_eq_getElems I found hb hp 0 cell.length (by omega)
    have used : usedBuffer cell h = (loadNatives cell p 0 cell.length >>= bufferOf cell.type) h := by
      unfold usedBuffer
      rw [bind_of_ok (managed_run I found), hb]
      exact bind_of_ok (nativePeer_run hp)
    unfold Outcome
    rw [toList, vector_bind found]
    cases all : getElems v 0 cell.length h with
    | error f h₁ =>
      obtain ⟨rfl, _⟩ := Outcome.error reads all
      exact ⟨rfl, used.trans (bind_of_error (loads.trans all))⟩
    | ok es h₁ =>
      obtain ⟨rfl, sound⟩ := Outcome.ok reads all
      have typed := bufferOf_run (h := h₁) (fun e he => (sound e he).1)
      exact ⟨rfl, ⟨cell.type, es, _⟩, used.trans ((bind_of_ok (loads.trans all)).trans typed), rfl, rfl⟩

def whole (type : ElemType) (es : List Elem) : Sequence := ⟨type, es, es.length, false, .temporary⟩

theorem elements_whole (type : ElemType) (es : List Elem) : (whole type es).elements = es :=
  List.take_length

theorem copied_of_toList (I : h.Intact) (found : h.vectors.find? v = some cell) {es : List Elem}
    (all : toList v h = .ok es h) :
    ∃ d h', copy v h = .ok d h' ∧ h.Copied cell.context (whole cell.type es) d h' := by
  obtain ⟨_, b, used, type, rfl⟩ := Outcome.ok (usedBuffer_eq_toList I found) all
  have sound := (Outcome.ok (usedBuffer_reads I found) used).2
  exact Heap.copied_of_buffer I found used sound rfl (elements_whole cell.type b.slots) rfl

section
variable {c : ContextId} {type : ElemType} {es : List Elem} {d : VectorId} {h' : Heap}

theorem copied_found (C : h.Copied c (whole type es) d h') :
    ∃ cell', h'.vectors.find? d = some cell' ∧ cell'.type = type := by
  obtain ⟨complete, made⟩ := C.made
  obtain ⟨cell', found, shows⟩ := Heap.sequence_eq_some_iff.mp made.sequence
  exact ⟨cell', found, congrArg Sequence.type shows⟩

theorem toList_copied (I : h.Intact) (C : h.Copied c (whole type es) d h') :
    toList d h' = .ok es h' := by
  obtain ⟨complete, made⟩ := C.made
  obtain ⟨cell', found, shows⟩ := Heap.sequence_eq_some_iff.mp made.sequence
  obtain ⟨_, b, found', managed⟩ := Heap.isManaged_iff.mp C.managed
  cases found.symm.trans found'
  have readable : h'.Readable cell' := fun native => absurd (managed.symm.trans native) (by simp)
  rw [toList_run (C.moves.intact I) found readable,
    show h'.elements cell' = es from (congrArg Sequence.slots shows).trans (elements_whole type es),
    show cell'.length = es.length from congrArg Sequence.length shows, List.take_length]

end

/-- Reading all elements in use comes to what the accesses come to one by one, and a copy has the
elements that were read. Where an element is not found, both stop as its access does. -/
theorem toList_agrees (I : h.Intact) (found : h.vectors.find? v = some cell) :
    Outcome (toList v) h
      (fun es h₁ => h₁ = h ∧ (∀ i, getElem v i h = entry es i h) ∧
        ∃ d h', copy v h = .ok d h' ∧ toList d h' = .ok es h' ∧ ∀ i, getElem d i h' = entry es i h')
      (fun f h₁ => h₁ = h ∧ (∃ i < cell.length, getElem v i h = .error f h) ∧
        copy v h = .error f h) := by
  have buffered := usedBuffer_eq_toList I found
  unfold Outcome at buffered ⊢
  cases all : toList v h with
  | error f h₁ =>
    rw [all] at buffered
    obtain ⟨rfl, used⟩ := buffered
    have stopped := all
    rw [toList, vector_bind found] at stopped
    obtain ⟨i, below, read⟩ := getElems_eq_error I found 0 cell.length stopped
    rw [Nat.zero_add] at read
    refine ⟨rfl, ⟨i, below, read⟩, ?_⟩
    unfold copy
    rw [vector_bind found, bind_of_error used]
  | ok es h₁ =>
    rw [all] at buffered
    obtain ⟨rfl, _⟩ := buffered
    obtain ⟨d, h', copied, C⟩ := copied_of_toList I found all
    obtain ⟨cell', found', _⟩ := copied_found C
    have again := toList_copied I C
    exact ⟨rfl, (toList_eq_ok_iff I found es).mp all, d, h', copied, again,
      (toList_eq_ok_iff (C.moves.intact I) found' es).mp again⟩

end Op

namespace Heap

open Op

variable {h h₀ : Heap} {v : VectorId} {cell : VectorCell} {t : InlineType}

def values (h : Heap) (t : InlineType) (cell : VectorCell) : List t.Value :=
  ((h.elements cell).filterMap (Elem.value? t)).take cell.length

theorem map_values (F : h.VectorFormed v cell) (sort : cell.type = t.elemType) :
    (h.values t cell).map (Elem.ofValue t) = (h.elements cell).take cell.length := by
  rw [values, List.map_take, ofValue_filterMap (fun e he => (F.type_elements he).trans sort)]

theorem length_values (F : h.VectorFormed v cell) (sort : cell.type = t.elemType) :
    (h.values t cell).length = cell.length := by
  have count := congrArg List.length (map_values F sort)
  rw [List.length_map, List.length_take, Nat.min_eq_left F.length_le_elements] at count
  exact count

theorem values_native (F : h.VectorFormed v cell) (sort : cell.type = t.elemType)
    (native : cell.buffer = none) {p : PeerId} {q : Peer} (hp : cell.peer = some p)
    (hq : h.peers.find? p = some q) :
    h.values t cell = t.decodeAll cell.length (h.contents q.backing) := by
  have inline : InlineType.ofElemType? cell.type = some t := sort ▸ t.ofElemType_elemType
  have window := F.window
  have all : ∀ xs : List t.Value, (xs.map (Elem.ofValue t)).filterMap (Elem.value? t) = xs := by
    intro xs
    have same : Elem.value? t ∘ Elem.ofValue t = some := funext (Elem.value_ofValue t)
    rw [List.filterMap_map, same, List.filterMap_some]
  rw [values, elements_native native hp hq, nativeElements_inline inline, all]
  refine List.ext_getElem? (fun i => ?_)
  rw [List.getElem?_take, t.getElem?_decodeAll, t.getElem?_decodeAll]
  split
  · rw [if_pos (by omega)]
  · rfl

structure ReadsAs (h : Heap) (v : VectorId) (t : InlineType) (xs : List t.Value) : Prop where
  value : ∀ i, getValue v t i h = entry xs i h
  element : ∀ i, getElem v i h = entry (xs.map (Elem.ofValue t)) i h
  values : toValues v t h = .ok xs h
  elements : toList v h = .ok (xs.map (Elem.ofValue t)) h

theorem readable_inline (F : h.VectorFormed v cell) (sort : cell.type = t.elemType) :
    h.Readable cell := by
  intro _ e he o ho
  have indirect := e.isIndirect_of_object ho
  rw [F.type_elements he, sort] at indirect
  exact absurd indirect (by cases t <;> decide)

theorem getValue_run (I : h.Intact) (found : h.vectors.find? v = some cell)
    (sort : cell.type = t.elemType) (i : Nat) : getValue v t i h = entry (h.values t cell) i h := by
  have F := I.vectors v cell found
  have window := F.window
  have count := length_values F sort
  have checked : checkType cell.type t.elemType h = .ok () h := by rw [checkType_run, if_pos sort.symm]
  unfold getValue
  rw [vector_bind found, bind_of_ok checked]
  by_cases inside : i < cell.length
  · have indexed : checkIndex cell i h = .ok () h := by rw [checkIndex_run, if_pos inside]
    rw [bind_of_ok indexed, bind_of_ok (managed_run I found)]
    cases hb : cell.buffer with
    | some b =>
      have M := F.managed b hb
      obtain ⟨run, length⟩ := bufferValues_run (h := h) (M.type.trans sort)
      have bound : i < (b.slots.filterMap (Elem.value? t)).length := by rw [length, M.capacity]; omega
      have slot : (h.values t cell)[i]? = some (b.slots.filterMap (Elem.value? t))[i] := by
        rw [Heap.values, elements_managed hb, List.getElem?_take, if_pos inside,
          List.getElem?_eq_getElem bound]
      rw [entry_some slot]
      refine (bind_of_ok run).trans ?_
      simp only [List.getElem?_eq_getElem bound]
      rfl
    | none =>
      obtain ⟨p, q, hp, hq, N⟩ := F.native hb
      have inline : InlineType.ofElemType? cell.type = some t := sort ▸ t.ofElemType_elemType
      have slot : (h.values t cell)[i]? = some (t.decode ((h.contents q.backing).slot t.width i)) := by
        rw [values_native F sort hb hp hq, t.getElem?_decodeAll, if_pos inside]
      rw [entry_some slot]
      exact (bind_of_ok (nativePeer_run hp)).trans (loadValue_run inline hq N (by omega))
  · rw [entry_past (by omega), count]
    exact bind_of_error (by rw [checkIndex_run, if_neg inside])

theorem toValues_run (I : h.Intact) (found : h.vectors.find? v = some cell)
    (sort : cell.type = t.elemType) : toValues v t h = .ok (h.values t cell) h := by
  have F := I.vectors v cell found
  have window := F.window
  have checked : checkType cell.type t.elemType h = .ok () h := by rw [checkType_run, if_pos sort.symm]
  unfold toValues
  rw [vector_bind found, bind_of_ok checked, bind_of_ok (managed_run I found)]
  cases hb : cell.buffer with
  | some b =>
    have M := F.managed b hb
    obtain ⟨run, length⟩ := bufferValues_run (h := h) (M.type.trans sort)
    have fits : cell.length ≤ (b.slots.filterMap (Elem.value? t)).length := by
      rw [length, M.capacity]
      exact window
    refine (bind_of_ok run).trans ?_
    rw [if_pos fits, Heap.values, elements_managed hb]
    rfl
  | none =>
    obtain ⟨p, q, hp, hq, N⟩ := F.native hb
    have inside : cell.length * t.width ≤ (h.contents q.backing).length := by
      have room := N.room.2
      rw [sort] at room
      exact Nat.le_trans (Nat.mul_le_mul_right _ window) room
    refine (bind_of_ok (nativePeer_run hp)).trans ((bind_of_ok (peer_ok hq)).trans
      ((bind_of_ok (contentsTo_run inside)).trans ?_))
    -- What lies behind the elements in use is not read.
    have used : t.decodeAll cell.length ((h.contents q.backing).take (cell.length * t.width)) =
        t.decodeAll cell.length (h.contents q.backing) := by
      refine List.ext_getElem? (fun i => ?_)
      rw [t.getElem?_decodeAll, t.getElem?_decodeAll]
      split
      · rename_i below
        rw [Bytes.slot_take _ _ _ (Nat.mul_le_mul_right _ below)]
      · rfl
    rw [values_native F sort hb hp hq, ← used]
    rfl

theorem readsAs_values (I : h.Intact) (found : h.vectors.find? v = some cell)
    (sort : cell.type = t.elemType) : h.ReadsAs v t (h.values t cell) := by
  have F := I.vectors v cell found
  have all : toList v h = .ok ((h.values t cell).map (Elem.ofValue t)) h := by
    rw [toList_run I found (readable_inline F sort), map_values F sort]
  exact ⟨getValue_run I found sort, (toList_eq_ok_iff I found _).mp all, toValues_run I found sort, all⟩

theorem getValue_mistyped (found : h.vectors.find? v = some cell) (other : cell.type ≠ t.elemType)
    (i : Nat) : getValue v t i h =
      .error (.error (.representationMismatch cell.type t.elemType)) h := by
  unfold getValue
  rw [vector_bind found]
  exact bind_of_error (by rw [checkType_run, if_neg other.symm])

theorem toValues_mistyped (found : h.vectors.find? v = some cell) (other : cell.type ≠ t.elemType) :
    toValues v t h = .error (.error (.representationMismatch cell.type t.elemType)) h := by
  unfold toValues
  rw [vector_bind found]
  exact bind_of_error (by rw [checkType_run, if_neg other.symm])

theorem map_ofValue_injective {xs ys : List t.Value}
    (same : xs.map (Elem.ofValue t) = ys.map (Elem.ofValue t)) : xs = ys := by
  refine List.map_inj_right (fun x y equal => ?_) |>.mp same
  have values := congrArg (Elem.value? t) equal
  rw [Elem.value_ofValue, Elem.value_ofValue] at values
  exact Option.some.inj values

theorem ReadsAs.copy (I : h.Intact) (found : h.vectors.find? v = some cell)
    (sort : cell.type = t.elemType) {xs : List t.Value} (R : h.ReadsAs v t xs) :
    ∃ d h', Op.copy v h = .ok d h' ∧ h'.ReadsAs d t xs := by
  obtain ⟨d, h', copied, C⟩ := copied_of_toList I found R.elements
  obtain ⟨cell', found', type⟩ := copied_found C
  have R' := readsAs_values (C.moves.intact I) found' (type.trans sort)
  have same := (toList_copied I C).symm.trans R'.elements
  have values : xs = h'.values t cell' := map_ofValue_injective (EStateM.Result.ok.inj same).1
  exact ⟨d, h', copied, values ▸ R'⟩

theorem Local.toList {c : ContextId} (L : h.Local c v) (I : h.Intact) (N : h.NamesIn c)
    (found : h.vectors.find? v = some cell) :
    Op.toList v h = .ok (h.sequence cell).elements h := by
  have count : (h.sequence cell).elements.length = cell.length := by
    rw [Sequence.elements, List.length_take]
    exact Nat.min_eq_left (I.vectors v cell found).length_le_elements
  refine (toList_eq_ok_iff I found _).mpr (fun i => ?_)
  rw [L.getElem I N (sequence_eq_some_iff.mpr ⟨cell, found, rfl⟩)]
  cases slot : (h.sequence cell).elements[i]? with
  | some e => rw [entry_some slot]
  | none =>
    rw [entry_past (List.getElem?_eq_none_iff.mp slot), count]
    rfl

/-! ### Runs -/

/-- After any run in which no peer of a live object was released by hand, all ways to read a vector
agree, whether it is managed or native and whatever became of its length and capacity. A vector of
inline values reads as one list of them, alone and all at once, as values and as elements, and so does
a copy; as values of another type it does not read at all. Of any vector, and so of strings and lists,
the elements in use are what the accesses answer one by one, and a copy has the same; where an access
stops inside, the other two stop with the same error. In a context that registered no handle twice, a
vector with elements of that context reads as what it holds. -/
theorem reads_agree_after_run {supply : Nat → Nat → Option Address} {log : List Entry}
    (run : Logged { supply } log h) (found : h.vectors.find? v = some cell) :
    (∀ t : InlineType, cell.type = t.elemType → ∃ xs, xs.length = cell.length ∧ h.ReadsAs v t xs ∧
      ∃ d h', Op.copy v h = .ok d h' ∧ h'.ReadsAs d t xs) ∧
    (∀ u : InlineType, cell.type ≠ u.elemType →
      (∀ i, getValue v u i h = .error (.error (.representationMismatch cell.type u.elemType)) h) ∧
      toValues v u h = .error (.error (.representationMismatch cell.type u.elemType)) h) ∧
    Outcome (toList v) h
      (fun es h₁ => h₁ = h ∧ (∀ i, getElem v i h = entry es i h) ∧
        ∃ d h', Op.copy v h = .ok d h' ∧ toList d h' = .ok es h' ∧ ∀ i, getElem d i h' = entry es i h')
      (fun f h₁ => h₁ = h ∧ (∃ i < cell.length, getElem v i h = .error f h) ∧
        Op.copy v h = .error f h) ∧
    ∀ past, RunIn cell.context { supply } past h → h.Own cell.context (h.sequence cell).elements →
      toList v h = .ok (h.sequence cell).elements h := by
  have I := run.intact (intact_of_supply supply)
  refine ⟨fun t sort => ?_, fun u other => ⟨getValue_mistyped found other, toValues_mistyped found other⟩,
    toList_agrees I found, fun past run' own => ?_⟩
  · have R := readsAs_values I found sort
    exact ⟨h.values t cell, length_values (I.vectors v cell found) sort, R, R.copy I found sort⟩
  · have N := run'.namesIn (intact_of_supply supply) (namesIn_of_supply supply cell.context)
    have shows : h.sequence? v = some (h.sequence cell) := sequence_eq_some_iff.mpr ⟨cell, found, rfl⟩
    have L : h.Local cell.context v := by
      refine ⟨by rw [contextOf?, found]; rfl, fun _ s shows' => ?_⟩
      cases shows.symm.trans shows'
      exact own
    exact L.toList I N found

/-- Foreign words other than 0, 1 and the smallest integer read as true, and a copy reads as they do. -/
theorem reads_agree_after_adoption :
    ∃ log h, Logged {} log h ∧ h.foreign? ⟨0⟩ = some ⟨0⟩ ∧ h.ReadsAs ⟨0⟩ .logical [.true, .na] ∧
      ∃ d h', Op.copy ⟨0⟩ h = .ok d h' ∧ h'.ReadsAs d .logical [.true, .na] := by
  have run₁ : Logged {} [⟨{}, .newContext .default, true⟩] _ :=
    Logged.start.call (.newContext .default) ⟨by decide, by simp⟩ (.answer rfl)
  have run₂ := run₁.call (.newBuffer [7, 0, 0, 0, 0, 0, 0, 0x80]) ⟨by decide, by simp⟩ (.answer rfl)
  have run₃ := run₂.call (.adopt ⟨0⟩ .logical (some ⟨0⟩) 2)
    ⟨by decide, fun _ _ _ _ own => by cases own; exact ⟨_, rfl, by decide⟩⟩ (.answer rfl)
  obtain ⟨xs, _, reads, copied⟩ := (reads_agree_after_run run₃ (v := ⟨0⟩) rfl).1 .logical rfl
  have answer := reads.values
  have words : xs = [.true, .na] := by
    refine (EStateM.Result.ok.inj (answer.symm.trans (Op.run_of_ok ?_))).1
    decide +kernel
  subst words
  exact ⟨_, _, run₃, by decide +kernel, reads, copied⟩

end Heap
end VectorHeap
