import VectorHeap.Proofs.Contents
import VectorHeap.Vector.Copying

/-! Reading elements. No read changes the heap or leaves the contents, and what it answers is the slot
of the vector's sequence when the handles in the contents still name their elements. -/
namespace VectorHeap

namespace Heap

/-- The handles in native contents name the pinned elements. -/
def Readable (h : Heap) (cell : VectorCell) : Prop :=
  cell.buffer = none → ∀ e ∈ h.elements cell, ∀ o, e.object? = some o →
    h.resolve? cell.context (h.handleOf o) = some o

end Heap

namespace Op

variable {h : Heap} {v : VectorId} {cell : VectorCell} {α β : Type}

/-- An operation that answers or refuses with an error, and leaves the heap alone. -/
def Reads (op : Op α) (h : Heap) (answers : α → Prop) : Prop :=
  Outcome op h (fun a h' => h' = h ∧ answers a) (fun f h' => h' = h ∧ ∃ e, f = .error e)

theorem Reads.bind {x : Op β} {f : β → Op α} {middle : β → Prop} {answers : α → Prop}
    (first : Reads x h middle) (rest : ∀ b, middle b → Reads (f b) h answers) :
    Reads (x >>= f) h answers := by
  refine Outcome.bind first ?_
  rintro b h₁ ⟨rfl, mid⟩
  exact rest b mid

theorem Reads.of_ok {op : Op α} {answers : α → Prop} {a : α} (run : op h = .ok a h)
    (ok : answers a) : Reads op h answers :=
  Outcome.of_ok run ⟨rfl, ok⟩

theorem Reads.of_error {op : Op α} {answers : α → Prop} {e : Error}
    (run : op h = .error (.error e) h) : Reads op h answers :=
  Outcome.of_error run ⟨rfl, e, rfl⟩

/-- An element that can be held: of a type, and alive if it is a reference. -/
def Sound (h : Heap) (type : ElemType) (e : Elem) : Prop :=
  e.type = type ∧ ∀ o, e.object? = some o → h.isAlive o = true

theorem sound_of_mem (I : h.Intact) (found : h.vectors.find? v = some cell) {e : Elem}
    (he : e ∈ h.elements cell) : Sound h cell.type e :=
  ⟨(I.vectors v cell found).type_elements he, fun _ => I.alive_of_mem found he⟩

theorem checkType_run (expected found : ElemType) :
    checkType expected found h = if found = expected then .ok () h
      else .error (.error (.representationMismatch expected found)) h := by
  unfold checkType
  split <;> rfl

theorem checkType_reads (expected found : ElemType) :
    Reads (checkType expected found) h (fun _ => found = expected) := by
  have run := checkType_run (h := h) expected found
  split at run
  · rename_i same
    exact .of_ok run same
  · exact .of_error run

theorem checkIndex_run (cell : VectorCell) (i : Nat) :
    checkIndex cell i h = if i < cell.length then .ok () h
      else .error (.error (.indexOutOfBounds i cell.length)) h := by
  unfold checkIndex
  split <;> rfl

theorem checkIndex_reads (cell : VectorCell) (i : Nat) :
    Reads (checkIndex cell i) h (fun _ => i < cell.length) := by
  have run := checkIndex_run (h := h) cell i
  split at run
  · rename_i lt
    exact .of_ok run lt
  · exact .of_error run

/-! ### One slot -/

theorem managed_run_of {ctx : Context} (hctx : h.contexts.find? cell.context = some ctx)
    (switched : cell.buffer = none → h.isPromoted cell.context cell.type = true) :
    managed? cell h = .ok cell.buffer h := by
  unfold managed?
  rw [context_bind hctx]
  by_cases flipped : ctx.switches.isPromoted cell.type = true
  · rw [if_pos flipped]
    rfl
  · rw [if_neg flipped]
    cases hb : cell.buffer with
    | some b => rfl
    | none =>
      have switched := switched hb
      rw [Heap.isPromoted, hctx] at switched
      exact absurd switched flipped

/-- A vector has no managed buffer only if its type's switch was flipped. -/
theorem managed_run (I : h.Intact) (found : h.vectors.find? v = some cell) :
    managed? cell h = .ok cell.buffer h := by
  obtain ⟨ctx, hctx⟩ := I.context_of_vector found
  refine managed_run_of hctx (fun hb => ?_)
  obtain ⟨p, q, _, _, N⟩ := (I.vectors v cell found).native hb
  exact N.switched

theorem nativePeer_run {p : PeerId} (hp : cell.peer = some p) : nativePeer cell h = .ok p h := by
  unfold nativePeer
  rw [hp]
  rfl

theorem lookup_run {c : ContextId} {ctx : Context} (found : h.contexts.find? c = some ctx)
    (k : Handle) : lookup c k h = match h.resolve? c k with
      | some o => .ok o h
      | none => .error (.error (ctx.registry.invalidHandle k)) h := by
  unfold lookup
  rw [context_bind found, get_bind]
  cases h.resolve? c k <;> rfl

theorem lookup_reads {c : ContextId} {ctx : Context} (found : h.contexts.find? c = some ctx)
    (k : Handle) : Reads (lookup c k) h (fun o => h.isAlive o = true) := by
  cases resolved : h.resolve? c k with
  | none => exact .of_error (by rw [lookup_run found, resolved])
  | some o =>
    refine .of_ok (by rw [lookup_run found, resolved]) ?_
    simp only [Heap.resolve?, found, Option.bind_eq_bind, Option.bind_some] at resolved
    obtain ⟨p, _, resolved⟩ := Option.bind_eq_some_iff.mp resolved
    obtain ⟨q, _, resolved⟩ := Option.bind_eq_some_iff.mp resolved
    split at resolved
    · rename_i alive
      cases resolved
      exact alive
    · exact absurd resolved (by simp)

theorem loadValue_run {p : PeerId} {q : Peer} {t : InlineType} {i : Nat}
    (inline : InlineType.ofElemType? cell.type = some t) (hq : h.peers.find? p = some q)
    (N : h.Native cell q) (lt : i < cell.capacity) :
    loadValue p t i h = .ok (t.decode ((h.contents q.backing).slot t.width i)) h := by
  have width : cell.type.nativeWidth = t.width :=
    congrArg ElemType.nativeWidth (Heap.ofElemType_eq_some inline).1
  have inside : (i + 1) * t.width ≤ (h.contents q.backing).length := by
    have room := N.room.2
    rw [width] at room
    exact Nat.le_trans (Nat.mul_le_mul_right _ lt) room
  have window : i < max q.capacity q.length := by rw [N.capacity]; omega
  unfold loadValue
  rw [bind_of_ok (readSlot_run hq N.room.1 window inside)]
  rfl

theorem loadNative_inline {p : PeerId} {q : Peer} {t : InlineType} {i : Nat}
    (inline : InlineType.ofElemType? cell.type = some t) (hq : h.peers.find? p = some q)
    (N : h.Native cell q) (lt : i < cell.capacity) :
    loadNative cell p i h = .ok (.ofValue t (t.decode ((h.contents q.backing).slot t.width i))) h := by
  unfold loadNative
  rw [inline]
  exact bind_of_ok (loadValue_run inline hq N lt)

theorem loadNative_indirect {p : PeerId} {q : Peer} {o : Object} {i : Nat}
    (indirect : cell.type.isIndirect = true) (hq : h.peers.find? p = some q) (N : h.Native cell q)
    (lt : i < cell.capacity) (pin : q.pins[i]? = some o) :
    loadNative cell p i h = (do
      let e := (← lookup cell.context (h.handleOf o)).toElem
      checkType cell.type e.type
      return e : Op Elem) h := by
  have width := ElemType.nativeWidth_indirect indirect
  have inside : (i + 1) * 8 ≤ (h.contents q.backing).length := by
    have room := N.room.2
    rw [width] at room
    exact Nat.le_trans (Nat.mul_le_mul_right _ lt) room
  have window : i < max q.capacity q.length := by rw [N.capacity]; omega
  have read := readSlot_run hq N.room.1 window inside
  have handle : readHandle p i h = .ok (h.handleOf o) h := by
    unfold readHandle
    rw [bind_of_ok read, ((N.indirect indirect).word i o pin).2, handle_of_bytes]
    rfl
  unfold loadNative
  rw [Heap.ofElemType_eq_none.mpr indirect]
  exact bind_of_ok handle

theorem loadNative_reads (I : h.Intact) (found : h.vectors.find? v = some cell)
    (native : cell.buffer = none) {p : PeerId} (hp : cell.peer = some p) {i : Nat}
    (lt : i < cell.capacity) : Reads (loadNative cell p i) h (Sound h cell.type) := by
  obtain ⟨p', q, hp', hq, N⟩ := (I.vectors v cell found).native native
  cases hp.symm.trans hp'
  cases inline : InlineType.ofElemType? cell.type with
  | some t =>
    refine .of_ok (loadNative_inline inline hq N lt) ⟨?_, fun o ho => ?_⟩
    · rw [Elem.type_ofValue, (Heap.ofElemType_eq_some inline).1]
    · exact absurd ((Heap.object_ofValue t _).symm.trans ho) (by simp)
  | none =>
    have indirect := Heap.ofElemType_eq_none.mp inline
    have bound : i < q.pins.length := by rw [(N.indirect indirect).count]; exact lt
    obtain ⟨ctx, hctx⟩ := I.context_of_vector found
    have run := loadNative_indirect indirect hq N lt (List.getElem?_eq_getElem bound)
    unfold Reads Outcome
    rw [run]
    refine Reads.bind (lookup_reads hctx (h.handleOf q.pins[i])) (fun o alive => ?_)
    refine (checkType_reads _ _).bind (fun _ same => .of_ok rfl ⟨same, fun o' ho' => ?_⟩)
    cases (Object.object_toElem o).symm.trans ho'
    exact alive

theorem loadNative_run (I : h.Intact) (found : h.vectors.find? v = some cell)
    (native : cell.buffer = none) {p : PeerId} (hp : cell.peer = some p) (readable : h.Readable cell)
    {i : Nat} (lt : i < cell.capacity) :
    ∃ e, (h.elements cell)[i]? = some e ∧ loadNative cell p i h = .ok e h := by
  obtain ⟨p', q, hp', hq, N⟩ := (I.vectors v cell found).native native
  cases hp.symm.trans hp'
  have slots := Heap.elements_native native hp hq
  cases inline : InlineType.ofElemType? cell.type with
  | some t =>
    refine ⟨_, ?_, loadNative_inline inline hq N lt⟩
    rw [slots, Heap.nativeElements_inline inline, List.getElem?_map, t.getElem?_decodeAll, if_pos lt]
    rfl
  | none =>
    have indirect := Heap.ofElemType_eq_none.mp inline
    have P := N.indirect indirect
    have bound : i < q.pins.length := by rw [P.count]; exact lt
    have pin : q.pins[i]? = some q.pins[i] := List.getElem?_eq_getElem bound
    obtain ⟨ctx, hctx⟩ := I.context_of_vector found
    have there : q.pins[i].toElem ∈ h.elements cell := by
      rw [slots, Heap.nativeElements_indirect indirect]
      exact List.mem_map_of_mem (List.getElem_mem bound)
    have named := readable native _ there _ (Object.object_toElem _)
    refine ⟨q.pins[i].toElem, ?_, ?_⟩
    · rw [slots, Heap.nativeElements_indirect indirect, List.getElem?_map, pin, Option.map_some]
    · have typed := checkType_run (h := h) cell.type q.pins[i].toElem.type
      rw [if_pos (P.typed _ (List.getElem_mem bound))] at typed
      rw [loadNative_indirect indirect hq N lt pin, bind_of_ok (by rw [lookup_run hctx, named])]
      exact bind_of_ok typed

/-! ### Elements in use -/

theorem getElem_past (found : h.vectors.find? v = some cell) {i : Nat} (past : ¬ i < cell.length) :
    getElem v i h = .error (.error (.indexOutOfBounds i cell.length)) h := by
  unfold getElem checkIndex
  rw [vector_bind found, if_neg past]
  rfl

theorem getElem_managed (I : h.Intact) (found : h.vectors.find? v = some cell) {b : Buffer}
    (managed : cell.buffer = some b) {i : Nat} (lt : i < cell.length) :
    ∃ e, (h.elements cell)[i]? = some e ∧ getElem v i h = .ok e h := by
  have F := I.vectors v cell found
  have bound : i < b.slots.length := by
    have capacity : b.slots.length = cell.capacity := (F.managed b managed).capacity
    have window := F.window
    omega
  refine ⟨b.slots[i], ?_, ?_⟩
  · rw [Heap.elements_managed managed, List.getElem?_eq_getElem bound]
  · unfold getElem checkIndex
    rw [vector_bind found, if_pos lt]
    have buffer : managed? cell h = .ok (some b) h := managed ▸ managed_run I found
    refine (bind_of_ok (a := ()) rfl).trans ((bind_of_ok buffer).trans ?_)
    simp only [Buffer.get?, List.getElem?_eq_getElem bound]
    rfl

theorem getElem_native (I : h.Intact) (found : h.vectors.find? v = some cell)
    (native : cell.buffer = none) {p : PeerId} (hp : cell.peer = some p) {i : Nat}
    (lt : i < cell.length) : getElem v i h = loadNative cell p i h := by
  unfold getElem checkIndex
  rw [vector_bind found, if_pos lt]
  have buffer : managed? cell h = .ok none h := native ▸ managed_run I found
  exact (bind_of_ok (a := ()) rfl).trans ((bind_of_ok buffer).trans (bind_of_ok (nativePeer_run hp)))

theorem getElem_reads (I : h.Intact) (found : h.vectors.find? v = some cell) (i : Nat) :
    Reads (getElem v i) h (Sound h cell.type) := by
  by_cases lt : i < cell.length
  · cases hb : cell.buffer with
    | some b =>
      obtain ⟨e, he, run⟩ := getElem_managed I found hb lt
      exact .of_ok run (sound_of_mem I found (List.mem_of_getElem? he))
    | none =>
      obtain ⟨p, q, hp, _⟩ := (I.vectors v cell found).native hb
      have run := getElem_native I found hb hp lt
      have reads := loadNative_reads I found hb hp (Nat.lt_of_lt_of_le lt (I.vectors v cell found).window)
      unfold Reads Outcome at reads ⊢
      rw [run]
      exact reads
  · exact .of_error (getElem_past found lt)

theorem getElem_of_result (I : h.Intact) (there : h.has (.vector v) = true) {i : Nat} {e : Elem}
    (result : (getElem v i).result h = .ok e) : getElem v i h = .ok e h := by
  obtain ⟨cell, found⟩ := Heap.has_vector_iff.mp there
  have run := run_of_ok result
  rw [(Outcome.ok (getElem_reads I found i) run).1] at run
  exact run

theorem getElem_run (I : h.Intact) (found : h.vectors.find? v = some cell)
    (readable : h.Readable cell) {i : Nat} (lt : i < cell.length) :
    ∃ e, (h.elements cell)[i]? = some e ∧ getElem v i h = .ok e h := by
  cases hb : cell.buffer with
  | some b => exact getElem_managed I found hb lt
  | none =>
    obtain ⟨p, q, hp, _⟩ := (I.vectors v cell found).native hb
    obtain ⟨e, he, run⟩ := loadNative_run I found hb hp readable
      (Nat.lt_of_lt_of_le lt (I.vectors v cell found).window)
    exact ⟨e, he, (getElem_native I found hb hp lt).trans run⟩

theorem getElems_reads (I : h.Intact) (found : h.vectors.find? v = some cell) (i n : Nat) :
    Reads (getElems v i n) h (fun es => ∀ e ∈ es, Sound h cell.type e) := by
  induction n generalizing i with
  | zero => exact .of_ok rfl (by simp)
  | succ n ih =>
    refine (getElem_reads I found i).bind (fun e he => (ih (i + 1)).bind (fun es hes => ?_))
    exact .of_ok rfl (List.forall_mem_cons.mpr ⟨he, hes⟩)

theorem getElems_run (I : h.Intact) (found : h.vectors.find? v = some cell)
    (readable : h.Readable cell) (i n : Nat) (fits : i + n ≤ cell.length) :
    getElems v i n h = .ok (((h.elements cell).drop i).take n) h := by
  induction n generalizing i with
  | zero => rw [List.take_zero]; rfl
  | succ n ih =>
    obtain ⟨e, he, run⟩ := getElem_run I found readable (i := i) (by omega)
    have rest := ih (i + 1) (by omega)
    obtain ⟨bound, rfl⟩ := List.getElem?_eq_some_iff.mp he
    rw [List.drop_eq_getElem_cons bound, List.take_succ_cons]
    exact (bind_of_ok run).trans (bind_of_ok rest)

theorem toList_reads (I : h.Intact) (found : h.vectors.find? v = some cell) :
    Reads (toList v) h (fun es => ∀ e ∈ es, Sound h cell.type e) := by
  have reads := getElems_reads I found 0 cell.length
  unfold Reads Outcome at reads ⊢
  rw [toList, vector_bind found]
  exact reads

theorem toList_run (I : h.Intact) (found : h.vectors.find? v = some cell)
    (readable : h.Readable cell) :
    toList v h = .ok ((h.elements cell).take cell.length) h := by
  rw [toList, vector_bind found, getElems_run I found readable 0 _ (by omega), List.drop_zero]

/-! ### All elements in use at once -/

theorem value_of_type {t : InlineType} {e : Elem} (sort : e.type = t.elemType) :
    ∃ x, e = .ofValue t x ∧ e.value? t = some x := by
  cases t <;> cases e <;> simp only [Elem.type, InlineType.elemType, reduceCtorEq] at sort <;>
    exact ⟨_, rfl, rfl⟩

theorem ofValue_filterMap {t : InlineType} {es : List Elem} (typed : ∀ e ∈ es, e.type = t.elemType) :
    (es.filterMap (Elem.value? t)).map (Elem.ofValue t) = es := by
  induction es with
  | nil => rfl
  | cons e es ih =>
    obtain ⟨x, rfl, value⟩ := value_of_type (typed e (List.mem_cons_self ..))
    rw [List.filterMap_cons, value, List.map_cons, ih (fun e he => typed e (List.mem_cons_of_mem _ he))]

theorem bufferValues_run {t : InlineType} {b : Buffer} (sort : b.type = t.elemType) :
    bufferValues t b h = .ok (b.slots.filterMap (Elem.value? t)) h ∧
      (b.slots.filterMap (Elem.value? t)).length = b.capacity := by
  refine ⟨?_, ?_⟩
  · unfold bufferValues
    rw [if_pos sort]
    rfl
  · have all := ofValue_filterMap (t := t) (fun e he => (b.typed e he).trans sort)
    rw [Buffer.capacity, ← congrArg List.length all, List.length_map]

theorem getValue_reads (I : h.Intact) (found : h.vectors.find? v = some cell) (t : InlineType)
    (i : Nat) : Reads (getValue v t i) h (fun _ => True) := by
  unfold getValue Reads Outcome
  rw [vector_bind found]
  refine (checkType_reads _ _).bind (fun _ sort => (checkIndex_reads cell i).bind (fun _ lt => ?_))
  have F := I.vectors v cell found
  have window := F.window
  refine Reads.bind (.of_ok (managed_run I found) (rfl : _ = cell.buffer)) (fun buffer same => ?_)
  subst same
  cases hb : cell.buffer with
  | some b =>
    have M := F.managed b hb
    obtain ⟨run, length⟩ := bufferValues_run (h := h) (M.type.trans sort.symm)
    refine Reads.bind (.of_ok run (rfl : _ = _)) (fun values same => ?_)
    subst same
    have bound : i < (b.slots.filterMap (Elem.value? t)).length := by
      rw [length, M.capacity]
      omega
    simp only [List.getElem?_eq_getElem bound]
    exact .of_ok rfl trivial
  | none =>
    obtain ⟨p, q, hp, hq, N⟩ := F.native hb
    have inline : InlineType.ofElemType? cell.type = some t := sort ▸ t.ofElemType_elemType
    refine Reads.bind (.of_ok (nativePeer_run hp) (rfl : _ = p)) (fun p' same => ?_)
    subst same
    exact .of_ok (loadValue_run inline hq N (Nat.lt_of_lt_of_le lt window)) trivial

theorem toValues_reads (I : h.Intact) (found : h.vectors.find? v = some cell) (t : InlineType) :
    Reads (toValues v t) h (fun _ => True) := by
  unfold toValues Reads Outcome
  rw [vector_bind found]
  refine (checkType_reads _ _).bind (fun _ sort => ?_)
  have F := I.vectors v cell found
  have window := F.window
  refine Reads.bind (.of_ok (managed_run I found) (rfl : _ = cell.buffer)) (fun buffer same => ?_)
  subst same
  cases hb : cell.buffer with
  | some b =>
    have M := F.managed b hb
    obtain ⟨run, length⟩ := bufferValues_run (h := h) (M.type.trans sort.symm)
    refine Reads.bind (.of_ok run (rfl : _ = _)) (fun values same => ?_)
    subst same
    have bound : cell.length ≤ (b.slots.filterMap (Elem.value? t)).length := by
      rw [length, M.capacity]
      omega
    simp only [if_pos bound]
    exact .of_ok rfl trivial
  | none =>
    obtain ⟨p, q, hp, hq, N⟩ := F.native hb
    have inside : cell.length * t.width ≤ (h.contents q.backing).length := by
      have room := N.room.2
      rw [← sort] at room
      exact Nat.le_trans (Nat.mul_le_mul_right _ window) room
    refine Reads.bind (.of_ok (nativePeer_run hp) (rfl : _ = p)) (fun p' same => ?_)
    subst same
    refine Reads.bind (.of_ok (peer_ok hq) (rfl : _ = q)) (fun q' same => ?_)
    subst same
    refine Reads.bind (.of_ok (contentsTo_run inside) (rfl : _ = _)) (fun bytes _ => ?_)
    exact .of_ok rfl trivial

/-! ### Copying out -/

theorem loadNatives_reads (I : h.Intact) (found : h.vectors.find? v = some cell)
    (native : cell.buffer = none) {p : PeerId} (hp : cell.peer = some p) (i n : Nat)
    (fits : i + n ≤ cell.capacity) :
    Reads (loadNatives cell p i n) h (fun es => es.length = n ∧ ∀ e ∈ es, Sound h cell.type e) := by
  induction n generalizing i with
  | zero => exact .of_ok rfl ⟨rfl, by simp⟩
  | succ n ih =>
    refine (loadNative_reads I found native hp (by omega)).bind (fun e he => ?_)
    refine (ih (i + 1) (by omega)).bind (fun es ⟨length, hes⟩ => ?_)
    exact .of_ok rfl ⟨congrArg Nat.succ length, List.forall_mem_cons.mpr ⟨he, hes⟩⟩

theorem loadNatives_run {p : PeerId} (i n : Nat)
    (each : ∀ j, i ≤ j → j < i + n →
      ∃ e, (h.elements cell)[j]? = some e ∧ loadNative cell p j h = .ok e h) :
    loadNatives cell p i n h = .ok (((h.elements cell).drop i).take n) h := by
  induction n generalizing i with
  | zero => rw [List.take_zero]; rfl
  | succ n ih =>
    obtain ⟨e, he, run⟩ := each i (Nat.le_refl i) (by omega)
    have rest := ih (i + 1) (fun j low high => each j (by omega) (by omega))
    obtain ⟨bound, rfl⟩ := List.getElem?_eq_some_iff.mp he
    rw [List.drop_eq_getElem_cons bound, List.take_succ_cons]
    exact (bind_of_ok run).trans (bind_of_ok rest)

theorem bufferOf_run {type : ElemType} {es : List Elem} (typed : ∀ e ∈ es, e.type = type) :
    bufferOf type es h = .ok ⟨type, es, typed⟩ h := by
  unfold bufferOf Buffer.ofList?
  rw [dif_pos typed]
  rfl

theorem bufferOf_mistyped {type : ElemType} {es : List Elem} (mistyped : ¬ ∀ e ∈ es, e.type = type) :
    bufferOf type es h = .error (.error (.representationMismatch type
      (((es.map Elem.type).find? (· ≠ type)).getD type))) h := by
  unfold bufferOf Buffer.ofList?
  rw [dif_neg mistyped]
  rfl

theorem take_run {b : Buffer} {n : Nat} (fits : n ≤ b.capacity) :
    ofPanic (b.take? n) h = .ok (b.take n) h := by
  unfold Buffer.take?
  rw [if_pos fits]
  rfl

def SoundBuffer (h : Heap) (type : ElemType) (b : Buffer) : Prop :=
  b.type = type ∧ ∀ e ∈ b.slots, Sound h type e

theorem usedBuffer_reads (I : h.Intact) (found : h.vectors.find? v = some cell) :
    Reads (usedBuffer cell) h (SoundBuffer h cell.type) := by
  have F := I.vectors v cell found
  have window := F.window
  unfold usedBuffer
  refine Reads.bind (.of_ok (managed_run I found) (rfl : _ = cell.buffer)) (fun buffer same => ?_)
  subst same
  cases hb : cell.buffer with
  | some b =>
    have M := F.managed b hb
    refine .of_ok (take_run (by rw [M.capacity]; exact window)) ⟨M.type, fun e he => ?_⟩
    exact sound_of_mem I found (by rw [Heap.elements_managed hb]; exact List.mem_of_mem_take he)
  | none =>
    obtain ⟨p, q, hp, hq, N⟩ := F.native hb
    refine Reads.bind (.of_ok (nativePeer_run hp) (rfl : _ = p)) (fun p' same => ?_)
    subst same
    refine (loadNatives_reads I found hb hp 0 cell.length (by omega)).bind (fun es ⟨_, sound⟩ => ?_)
    exact .of_ok (bufferOf_run (fun e he => (sound e he).1)) ⟨rfl, sound⟩

theorem usedBuffer_of_reads (I : h.Intact) (found : h.vectors.find? v = some cell)
    (reads : ∀ i < cell.length, ∃ e, (h.elements cell)[i]? = some e ∧ getElem v i h = .ok e h) :
    ∃ b, usedBuffer cell h = .ok b h ∧ b.type = cell.type ∧
      b.slots = (h.elements cell).take cell.length := by
  have F := I.vectors v cell found
  have window := F.window
  unfold usedBuffer
  rw [bind_of_ok (managed_run I found)]
  cases hb : cell.buffer with
  | some b =>
    have M := F.managed b hb
    refine ⟨b.take cell.length, take_run (by rw [M.capacity]; exact window), M.type, ?_⟩
    rw [Heap.elements_managed hb]
    rfl
  | none =>
    obtain ⟨p, q, hp, hq, N⟩ := F.native hb
    have run := loadNatives_run (h := h) (p := p) 0 cell.length (fun j _ lt => by
      rw [Nat.zero_add] at lt
      rw [← getElem_native I found hb hp lt]
      exact reads j lt)
    have typed : ∀ e ∈ ((h.elements cell).drop 0).take cell.length, e.type = cell.type := fun e he =>
      F.type_elements (List.mem_of_mem_take he)
    refine ⟨⟨cell.type, _, typed⟩, ?_, rfl, rfl⟩
    exact (bind_of_ok (nativePeer_run hp)).trans ((bind_of_ok run).trans (bufferOf_run typed))

theorem usedBuffer_run (I : h.Intact) (found : h.vectors.find? v = some cell)
    (readable : h.Readable cell) : ∃ b, usedBuffer cell h = .ok b h ∧ b.type = cell.type ∧
      b.slots = (h.elements cell).take cell.length :=
  usedBuffer_of_reads I found (fun _ lt => getElem_run I found readable lt)

end Op
end VectorHeap
