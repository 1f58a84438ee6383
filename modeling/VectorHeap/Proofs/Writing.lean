import VectorHeap.Proofs.Peers
import VectorHeap.Proofs.Reading
import VectorHeap.Vector.Access

/-! Writing elements. A write changes one slot of the vector's sequence, on whichever side it is. -/
namespace VectorHeap

namespace Heap

variable {h : Heap} {v : VectorId} {cell : VectorCell} {p : PeerId} {q : Peer}

theorem Written.apart {offset : Nat} {data : Bytes} {backing : Backing} {pins : List Object}
    {h' : Heap} (W : h.Written cell p q offset data backing pins h') (found : h.vectors.find? v = some cell)
    (hp : cell.peer = some p) (hq : h.peers.find? p = some q) :
    ∀ b, h.foreign? v ≠ some b → h'.buffers.find? b = h.buffers.find? b := fun b other =>
  W.buffers b (fun a external =>
    other (foreign_eq_some_iff.mpr ⟨cell, p, q, a, found, hp, hq, external⟩))

theorem Written.behind {offset : Nat} {data : Bytes} {backing : Backing} {pins : List Object}
    {h' : Heap} (W : h.Written cell p q offset data backing pins h')
    (found : h.vectors.find? v = some cell) (hp : cell.peer = some p)
    (hq : h.peers.find? p = some q) : ∀ b, h'.foreign? v = some b → h.foreign? v = some b := by
  intro b there
  obtain ⟨cell', p', q', a, found', hp', hq', external⟩ := foreign_eq_some_iff.mp there
  cases (W.vectors ▸ found').symm.trans found
  cases hp.symm.trans hp'
  cases W.peer.symm.trans hq'
  exact foreign_eq_some_iff.mpr ⟨cell, p, q, a, found, hp, hq, W.foreign a b external⟩

/-- The completeness flag goes when a missing element is stored. -/
def noted (h : Heap) (v : VectorId) (e : Elem) : Heap :=
  if h.isNA e then h.modifyVector v (fun cell => { cell with complete := false }) else h

theorem noted_rest (h : Heap) (v : VectorId) (e : Elem) :
    (h.noted v e).contexts = h.contexts ∧ (h.noted v e).peers = h.peers ∧
      (h.noted v e).buffers = h.buffers ∧ (h.noted v e).strings = h.strings := by
  unfold noted
  split <;> exact ⟨rfl, rfl, rfl, rfl⟩

theorem find_noted (found : h.vectors.find? v = some cell) (e : Elem) :
    (h.noted v e).vectors.find? v =
      some { cell with complete := cell.complete && !h.isNA e } := by
  unfold noted
  split
  · rename_i na
    refine (h.vectors.find_modify_self v _).trans ?_
    rw [found, na]
    simp
  · rename_i present
    rw [found, Bool.eq_false_iff.mpr present]
    simp

theorem noted_updates (I : h.Intact) (found : h.vectors.find? v = some cell) (e : Elem) :
    h.Updates v cell
      ⟨cell.type, h.elements cell, cell.length, cell.complete && !h.isNA e, cell.sharing⟩
      (h.noted v e) := by
  unfold noted
  split
  · rename_i na
    rw [na, Bool.not_true, Bool.and_false]
    exact updates_in_place I found (fun cell => { cell with complete := false }) (fun _ => rfl)
      (fun _ => ⟨rfl, rfl, rfl⟩)
  · rename_i present
    rw [Bool.eq_false_iff.mpr present, Bool.not_false, Bool.and_true]
    exact .refl I found

theorem Revises.noted (h : Heap) (v : VectorId) (e : Elem) :
    h.Revises (some v) none (h.noted v e) := by
  unfold Heap.noted
  split
  · exact (Revises.refl _ _ _).modifyVector v _ rfl (fun _ => rfl)
  · exact .refl _ _ _

end Heap

namespace Op

variable {h : Heap} {v : VectorId} {cell : VectorCell} {e : Elem} {i : Nat}

theorem noteMissing_run (h : Heap) (v : VectorId) (e : Elem) :
    noteMissing v e h = .ok () (h.noted v e) := by
  unfold noteMissing Heap.noted
  refine (bind_of_ok (rfl : isNA e h = .ok (h.isNA e) h)).trans ?_
  cases h.isNA e <;> rfl

theorem setPass_run (found : h.vectors.find? v = some cell) (lt : i < cell.length)
    (assigned : Option Handle) :
    setPass v i e assigned h = storeAt v cell i e assigned (h.noted v e) := by
  unfold setPass
  rw [vector_bind found, bind_of_ok (by rw [checkIndex_run, if_pos lt]),
    bind_of_ok (noteMissing_run h v e)]

/-- The cell that was read before the flag went still tells where the contents are. -/
theorem managed_run_noted (I : h.Intact) (found : h.vectors.find? v = some cell) (e : Elem) :
    managed? cell (h.noted v e) = .ok cell.buffer (h.noted v e) := by
  obtain ⟨ctx, hctx⟩ := I.context_of_vector found
  have contexts := (h.noted_rest v e).1
  have there : (h.noted v e).contexts.find? cell.context = some ctx := by rw [contexts]; exact hctx
  refine managed_run_of there (fun hb => ?_)
  obtain ⟨p, q, _, _, N⟩ := (I.vectors v cell found).native hb
  rw [Heap.isPromoted, contexts]
  exact N.switched

structure Stored (h : Heap) (v : VectorId) (cell : VectorCell) (i : Nat) (e : Elem) (h' : Heap) :
    Prop where
  updates : h.Updates v cell ((h.sequence cell).store i e (h.isNA e)) h'
  buffers : ∀ b, h.foreign? v ≠ some b → h'.buffers.find? b = h.buffers.find? b
  foreign : ∀ b, h'.foreign? v = some b → h.foreign? v = some b
  metered : h.Meters cell.context cell.peer h'

theorem setPass_managed_run (I : h.Intact) (found : h.vectors.find? v = some cell) {b : Buffer}
    (managed : cell.buffer = some b) (lt : i < cell.length) (typed : e.type = b.type)
    (assigned : Option Handle) : setPass v i e assigned h = .ok (.done ())
      ((h.noted v e).modifyVector v
        (fun cell => { cell with buffer := some (b.set i e typed) })) := by
  have F := I.vectors v cell found
  have room : i < b.capacity := by
    have window := F.window
    rw [(F.managed b managed).capacity]
    omega
  have stored : b.store? i e = .ok (some (b.set i e typed)) := by
    unfold Buffer.store?
    rw [dif_pos typed, if_pos room]
  rw [setPass_run found lt, storeAt, bind_of_ok (managed_run_noted I found e), managed]
  have run : ofPanic (b.store? i e) (h.noted v e) = .ok (some (b.set i e typed)) (h.noted v e) := by
    rw [stored]
    rfl
  exact (bind_of_ok run).trans rfl

theorem setPass_managed (I : h.Intact) (found : h.vectors.find? v = some cell) {b : Buffer}
    (managed : cell.buffer = some b) (lt : i < cell.length) (sound : Sound h cell.type e)
    (assigned : Option Handle) :
    ∃ h', setPass v i e assigned h = .ok (.done ()) h' ∧ Stored h v cell i e h' := by
  have F := I.vectors v cell found
  have M := F.managed b managed
  have typed : e.type = b.type := sound.1.trans M.type.symm
  let h' := (h.noted v e).modifyVector v (fun cell => { cell with buffer := some (b.set i e typed) })
  have found' : h'.vectors.find? v =
      some { cell with complete := cell.complete && !h.isNA e, buffer := some (b.set i e typed) } :=
    (Store.find_modify_self _ v _).trans (by rw [Heap.find_noted found]; rfl)
  have R : h.Revises (some v) none h' :=
    (Heap.Revises.noted h v e).modifyVector v _ rfl (fun _ => rfl)
  refine ⟨h', setPass_managed_run I found managed lt typed assigned, ?_,
    fun b' _ => congrArg (·.find? b') (h.noted_rest v e).2.2.1,
    fun b' there => (R.foreign v).symm.trans there, R.meters _ _⟩
  have U := Heap.updates_of_managed I found R found' managed rfl M.type
    (by rw [← M.capacity]; exact List.length_set) F.window (fun r hr => ?_)
  · rw [Heap.sequence, Heap.elements_managed managed]
    exact U
  · obtain ⟨x, hx, o, ho, rfl⟩ := Heap.mem_buffer_refs.mp hr
    rcases List.mem_or_eq_of_mem_set hx with old | rfl
    · exact F.refs _ (Heap.mem_vector_refs.mpr
        (.inr (.inr ⟨b, managed, Heap.mem_buffer_refs.mpr ⟨x, old, o, ho, rfl⟩⟩)))
    · rw [Heap.has_ofObject]
      exact sound.2 o ho

theorem inline_updates (I : h.Intact) (found : h.vectors.find? v = some cell)
    (native : cell.buffer = none) {p : PeerId} {q : Peer} (hp : cell.peer = some p)
    (hq : h.peers.find? p = some q) (N : h.Native cell q) {t : InlineType}
    (inline : InlineType.ofElemType? cell.type = some t) (x : t.Value) (room : i < cell.capacity)
    (fits : (i + 1) * t.width ≤ (h.contents q.backing).length) {backing : Backing} {h' : Heap}
    (W : h.Written cell p q (i * t.width) (t.encode x) backing q.pins h') :
    h.Updates v cell
      ⟨cell.type, (h.elements cell).set i (.ofValue t x), cell.length, cell.complete, cell.sharing⟩
      h' := by
  obtain ⟨sort, direct⟩ := Heap.ofElemType_eq_some inline
  have R := W.revises (some v)
  have found' : h'.vectors.find? v = some cell := by
    rw [W.vectors]
    exact found
  have U := Heap.updates_of_native I found hp hq R found' W.peer native (I.vectors v cell found).window
    { length := N.length, capacity := N.capacity, backed := W.backed,
      switched := R.switches _ _ N.switched,
      indirect := fun indirect => absurd (direct.symm.trans indirect) (by decide),
      inline := N.inline }
    (fun o ho => absurd (N.inline direct ▸ ho) (by simp))
  have start : i * t.width ≤ (h.contents q.backing).length :=
    Nat.le_trans (Nat.mul_le_mul_right _ (Nat.le_succ i)) fits
  rw [Heap.nativeElements_inline inline, W.contents, t.decodeAll_set x room start, List.map_set] at U
  rw [Heap.elements_native native hp hq, Heap.nativeElements_inline inline]
  exact U

theorem stored_of_written (I : h.Intact) (found : h.vectors.find? v = some cell) {p : PeerId}
    {q : Peer} (hp : cell.peer = some p) (hq : (h.noted v e).peers.find? p = some q) {offset : Nat}
    {data : Bytes} {backing : Backing} {pins : List Object} {h' : Heap}
    (W : (h.noted v e).Written { cell with complete := cell.complete && !h.isNA e } p q offset data
      backing pins h')
    (U : (h.noted v e).Updates v { cell with complete := cell.complete && !h.isNA e }
      ⟨cell.type, ((h.noted v e).elements { cell with complete := cell.complete && !h.isNA e }).set i e,
        cell.length, cell.complete && !h.isNA e, cell.sharing⟩ h') : Stored h v cell i e h' := by
  have P := Heap.noted_updates I found e
  have found₁ := Heap.find_noted found e
  have R := Heap.Revises.noted h v e
  have same := R.foreign v
  refine ⟨?_, fun b other => ?_, fun b there => ?_, (R.meters _ _).after W.counted W.owned⟩
  · have slots := congrArg Sequence.slots (P.formed _ found₁).2
    have S := P.trans U
    simp only [Heap.sequence] at slots
    rw [slots] at S
    exact S
  · have apart : (h.noted v e).foreign? v ≠ some b := by rw [same]; exact other
    rw [W.apart found₁ hp hq b apart, (h.noted_rest v e).2.2.1]
  · rw [← same]
    exact W.behind found₁ hp hq b there

theorem setPass_inline_run (I : h.Intact) (found : h.vectors.find? v = some cell)
    (native : cell.buffer = none) {t : InlineType}
    (inline : InlineType.ofElemType? cell.type = some t) (lt : i < cell.length)
    (sound : Sound h cell.type e) (assigned : Option Handle) :
    ∃ p q x, cell.peer = some p ∧ (h.noted v e).peers.find? p = some q ∧
      (h.noted v e).Native { cell with complete := cell.complete && !h.isNA e } q ∧ e = .ofValue t x ∧
      (i + 1) * t.width ≤ ((h.noted v e).contents q.backing).length ∧
      setPass v i e assigned h = .ok (.done ()) ((h.noted v e).overwrite p (i * t.width) (t.encode x)) := by
  obtain ⟨sort, direct⟩ := Heap.ofElemType_eq_some inline
  obtain ⟨x, he, _⟩ := value_of_type (sound.1.trans sort)
  have width : cell.type.nativeWidth = t.width := congrArg ElemType.nativeWidth sort
  have F₁ := ((Heap.noted_updates I found e).intact I).vectors v _ (Heap.find_noted found e)
  obtain ⟨p, q, hp, hq, N⟩ := F₁.native native
  have room : i < cell.capacity := Nat.lt_of_lt_of_le lt F₁.window
  have fits : (i + 1) * t.width ≤ ((h.noted v e).contents q.backing).length := by
    have size := N.room.2
    simp only [width] at size
    exact Nat.le_trans (Nat.mul_le_mul_right _ room) size
  have encode : e.encode = t.encode x := he ▸ Elem.encode_ofValue t x
  have object : e.object? = none := he ▸ Heap.object_ofValue t x
  have write := writeSlots_run hq ((t.length_encode x).trans (Nat.one_mul _).symm) t.width_pos N.room.1
    (by rw [N.capacity]; exact Nat.le_trans room (Nat.le_max_left _ _)) fits
  refine ⟨p, q, x, hp, hq, N, he, fits, ?_⟩
  rw [setPass_run found lt, storeAt, bind_of_ok (managed_run_noted I found e), native]
  refine (bind_of_ok (nativePeer_run hp)).trans ?_
  simp only [object, encode, width]
  exact bind_of_ok write

theorem setPass_inline (I : h.Intact) (found : h.vectors.find? v = some cell)
    (native : cell.buffer = none) {t : InlineType}
    (inline : InlineType.ofElemType? cell.type = some t) (lt : i < cell.length)
    (sound : Sound h cell.type e) (assigned : Option Handle) :
    ∃ h', setPass v i e assigned h = .ok (.done ()) h' ∧ Stored h v cell i e h' := by
  have found₁ := Heap.find_noted found e
  have I₁ := (Heap.noted_updates I found e).intact I
  have room : i < cell.capacity := Nat.lt_of_lt_of_le lt (I₁.vectors v _ found₁).window
  obtain ⟨p, q, x, hp, hq, N, he, fits, run⟩ := setPass_inline_run I found native inline lt sound assigned
  have inside : i * t.width + (t.encode x).length ≤ ((h.noted v e).contents q.backing).length := by
    rw [t.length_encode, ← Nat.succ_mul]
    exact fits
  obtain ⟨backing, W⟩ := Heap.written hq N.backed inside
  have U := inline_updates I₁ found₁ native hp hq N inline x room fits W
  rw [← he] at U
  exact ⟨_, run, stored_of_written I found hp hq W U⟩

theorem object_of_indirect (sound : Sound h cell.type e) (indirect : cell.type.isIndirect = true) :
    ∃ o, e = o.toElem ∧ e.object? = some o := by
  obtain ⟨o, rfl⟩ := Elem.eq_toElem (sound.1 ▸ indirect)
  exact ⟨o, rfl, o.object_toElem⟩

/-- The first pass over a native indirect vector assigns the handle. -/
theorem setPass_assign (I : h.Intact) (found : h.vectors.find? v = some cell)
    (native : cell.buffer = none) (lt : i < cell.length) {o : Object} (ho : e.object? = some o) :
    setPass v i e none h =
      (do return .again (some (← ensureHandle o)) : Op (Pass (Option Handle) Unit)) (h.noted v e) := by
  obtain ⟨p, q, hp, _⟩ := (I.vectors v cell found).native native
  rw [setPass_run found lt, storeAt, bind_of_ok (managed_run_noted I found e), native]
  refine (bind_of_ok (nativePeer_run hp)).trans ?_
  simp only [ho]

theorem pinned_updates (I : h.Intact) (found : h.vectors.find? v = some cell)
    (native : cell.buffer = none) {p : PeerId} {q : Peer} (hp : cell.peer = some p)
    (hq : h.peers.find? p = some q) (N : h.Native cell q) (indirect : cell.type.isIndirect = true)
    (room : i < cell.capacity) {o : Object} (sort : o.toElem.type = cell.type)
    (alive : h.isAlive o = true) (named : (h.handleOf o).isSome = true) {backing : Backing} {h' : Heap}
    (W : h.Written cell p q (i * 8) (handleBytes (h.handleOf o)) backing (pinFrom q.pins i [o]) h') :
    h.Updates v cell
      ⟨cell.type, (h.elements cell).set i o.toElem, cell.length, cell.complete, cell.sharing⟩ h' := by
  have P := N.indirect indirect
  have size := N.room.2
  rw [ElemType.nativeWidth_indirect indirect] at size
  have start : i * 8 ≤ (h.contents q.backing).length :=
    Nat.le_trans (Nat.mul_le_mul_right _ (Nat.le_of_lt room)) size
  have bound : i < q.pins.length := by rw [P.count]; exact room
  have pins : pinFrom q.pins i [o] = q.pins.set i o := by
    simp only [pinFrom, pinAt, if_pos bound]
  have R := W.revises (some v)
  have found' : h'.vectors.find? v = some cell := by
    rw [W.vectors]
    exact found
  have hq' := W.peer
  rw [pins] at hq'
  have U := Heap.updates_of_native I found hp hq R found' hq' native (I.vectors v cell found).window
    { length := N.length, capacity := N.capacity, backed := W.backed
      switched := R.switches _ _ N.switched
      indirect := fun _ =>
        { count := (List.length_set).trans P.count
          typed := fun o' ho' => (List.mem_or_eq_of_mem_set ho').elim (P.typed o') (fun e => e ▸ sort)
          word := fun j o' pin => by
            rw [R.handleOf]
            refine ⟨?_, ?_⟩
            · rcases List.mem_or_eq_of_mem_set (List.mem_of_getElem? pin) with old | rfl
              · obtain ⟨k, hk⟩ := List.getElem?_of_mem old
                exact (P.word k o' hk).1
              · exact named
            · have words := words_pinFrom h.handleOf [o] (Nat.le_of_lt bound) start
                (fun j o' pin _ => (P.word j o' pin).2) ((congrArg (·[j]?) pins).trans pin)
              simp only [List.flatMap_cons, List.flatMap_nil, List.append_nil] at words
              rw [W.contents]
              exact words }
      inline := fun inline => absurd (indirect.symm.trans inline) (by decide) }
    (fun o' ho' => by
      rcases List.mem_or_eq_of_mem_set ho' with old | rfl
      · rw [← Heap.has_ofObject]
        exact (I.peers p q hq).refs _ (Heap.mem_peer_refs.mpr ⟨o', old, rfl⟩)
      · exact alive)
  rw [Heap.nativeElements_indirect indirect, List.map_set] at U
  rw [Heap.elements_native native hp hq, Heap.nativeElements_indirect indirect]
  exact U

theorem setPass_handle (I : h.Intact) (found : h.vectors.find? v = some cell)
    (native : cell.buffer = none) (indirect : cell.type.isIndirect = true) (lt : i < cell.length)
    (sound : Sound h cell.type e) {o : Object} (ho : e.object? = some o)
    (named : (h.handleOf o).isSome = true) :
    ∃ h', setPass v i e (some (h.handleOf o)) h = .ok (.done ()) h' ∧ Stored h v cell i e h' := by
  obtain ⟨o', he, ho'⟩ := object_of_indirect sound indirect
  cases ho.symm.trans ho'
  have R := Heap.Revises.noted h v e
  have found₁ := Heap.find_noted found e
  have I₁ := (Heap.noted_updates I found e).intact I
  have F₁ := I₁.vectors v _ found₁
  obtain ⟨p, q, hp, hq, N⟩ := F₁.native native
  have room : i < cell.capacity := Nat.lt_of_lt_of_le lt F₁.window
  have size := N.room.2
  simp only [ElemType.nativeWidth_indirect indirect] at size
  obtain ⟨backing, h', write, W⟩ := writeHandles_written hq N.backed N.room.1 i [(o, h.handleOf o)]
    (fun _ => ⟨by rw [N.capacity]; exact Nat.le_trans room (Nat.le_max_left _ _),
      Nat.le_trans (Nat.mul_le_mul_right _ room) size⟩)
  have data : [(o, h.handleOf o)].flatMap (fun e => handleBytes e.2) =
      handleBytes ((h.noted v e).handleOf o) := by rw [R.handleOf]; exact List.append_nil _
  rw [data] at W
  have U := pinned_updates I₁ found₁ native hp hq N indirect room (he ▸ sound.1)
    ((R.isAlive o).trans (sound.2 o ho)) (by rw [R.handleOf]; exact named) W
  rw [← he] at U
  refine ⟨h', ?_, stored_of_written I found hp hq W U⟩
  rw [setPass_run found lt, storeAt, bind_of_ok (managed_run_noted I found e), native]
  refine (bind_of_ok (nativePeer_run hp)).trans ?_
  simp only [ho]
  exact bind_of_ok write

/-! ### What comes before the passes -/

theorem setElem_mistyped (found : h.vectors.find? v = some cell) (other : e.type ≠ cell.type) (i : Nat) :
    setElem v i e h = .error (.error (.representationMismatch cell.type e.type)) h := by
  unfold setElem
  rw [vector_bind found]
  exact bind_of_error (by rw [checkType_run, if_neg other])

theorem setElem_shared (found : h.vectors.find? v = some cell) (typed : e.type = cell.type)
    (shared : cell.sharing.isShared = true) (i : Nat) :
    setElem v i e h = .error (.panic .sharedWrite) h := by
  unfold setElem
  rw [vector_bind found, bind_of_ok (by rw [checkType_run, if_pos typed]), if_pos shared]
  rfl

theorem setElem_passes (found : h.vectors.find? v = some cell) (typed : e.type = cell.type)
    (unshared : cell.sharing.isShared = false) :
    setElem v i e h = retry (setPass v i e) setPasses none h := by
  unfold setElem
  rw [vector_bind found, bind_of_ok (by rw [checkType_run, if_pos typed]), unshared]
  rfl

theorem setPass_beyond (found : h.vectors.find? v = some cell) (beyond : ¬ i < cell.length)
    (assigned : Option Handle) :
    setPass v i e assigned h = .error (.error (.indexOutOfBounds i cell.length)) h := by
  unfold setPass
  rw [vector_bind found]
  exact bind_of_error (by rw [checkIndex_run, if_neg beyond])

/-! ### The whole write -/

theorem Stored.moves {h' : Heap} (S : Stored h v cell i e h') :
    h.Moves (Only v) (h.Behind v) h' :=
  (Heap.Change.update v cell _ (show Only v v from rfl) S.updates S.metered S.buffers (.store i e)
    (fun _ => S.foreign)).moves

theorem setPasses_indirect (I : h.Intact) (found : h.vectors.find? v = some cell)
    (native : cell.buffer = none) (indirect : cell.type.isIndirect = true) (lt : i < cell.length)
    (sound : Sound h cell.type e) {o : Object} (ho : e.object? = some o) :
    Performs (Only v) (h.Behind v) (retry (setPass v i e) setPasses none) h
      (fun _ h' => h.Leaves v ((h.sequence cell).store i e (h.isNA e)) h')
      (fun f h' => f = .error .contextDropped ∧ Orphaned h o ∧
        h'.sequence? v = some ((h.sequence cell).noting (h.isNA e))) := by
  have P := Heap.noted_updates I found e
  have R := Heap.Revises.noted h v e
  have I₁ := P.intact I
  have found₁ := Heap.find_noted found e
  have noted : h.Moves (Only v) (h.Behind v) (h.noted v e) :=
    (Heap.Change.update v cell _ (show Only v v from rfl) P (R.meters _ _)
      (fun b _ => congrArg (·.find? b) (h.noted_rest v e).2.2.1) (.noting (h.isNA e))
      (fun _ b there => (R.foreign v).symm.trans there)).moves
  refine Performs.retry (.after noted (setPass_assign I found native lt ho) ?_)
  have assign : Performs Nowhere Nowhere (ensureHandle o) (h.noted v e) _ _ :=
    ensureHandle_performs I₁ ((R.isAlive o).trans (sound.2 o ho))
  have handed : Performs (Only v) (h.Behind v) (ensureHandle o) (h.noted v e)
      (fun k h₂ => (h.noted v e).Moves Nowhere Nowhere h₂ ∧ h₂.handleOf o = k ∧ k.isSome = true)
      (fun f h₂ => f = .error .contextDropped ∧ Orphaned h o ∧
        h₂.sequence? v = some ((h.sequence cell).noting (h.isNA e))) := by
    refine (assign.mono ?_ ?_).widen (fun _ => False.elim) (fun _ => False.elim)
    · exact fun k h₂ M handle => ⟨M, handle⟩
    · exact fun f h₂ M stop =>
        ⟨stop.1, stop.2.earlier I noted (sound.2 o ho), (M.leaves I₁ P.sequence).1⟩
  refine handed.bind (fun k h₂ _ ⟨M, handle, named⟩ => .pure ?_)
  subst handle
  have I₂ := M.intact I₁
  -- what the vector itself is did not change while the handle was assigned
  obtain ⟨p', found₂, kept, same, foreign⟩ := M.kept I₁ found₁
  obtain ⟨p, _, hp, _⟩ := (I₁.vectors v _ found₁).native native
  cases (kept p hp).trans hp.symm
  have shows := same.trans (P.formed _ found₁).2
  have missing : h₂.isNA e = h.isNA e := by
    rw [M.isNA I₁ (fun o' ho' => (R.isAlive o').trans (sound.2 o' ho'))]
    cases e <;> simp only [Heap.isNA, (h.noted_rest v _).2.2.2]
  have sound₂ : Sound h₂ cell.type e :=
    ⟨sound.1, fun o' ho' => M.isAlive I₁ ((R.isAlive o').trans (sound.2 o' ho'))⟩
  obtain ⟨h', run, S⟩ := setPass_handle I₂ found₂ native indirect lt sound₂ ho named
  have behind : ∀ b, h₂.foreign? v = some b → h.foreign? v = some b :=
    fun b hb => (R.foreign v).symm.trans (foreign.symm.trans hb)
  refine Performs.retry (.of_ok run (S.moves.mono (fun _ => id) behind)
    ⟨?_, fun b hb => behind b (S.foreign b hb)⟩)
  · have final := S.updates.sequence
    rw [shows, missing] at final
    simpa only [Sequence.store, Heap.sequence, Bool.and_assoc, Bool.and_self] using final

theorem performs_of_stored {assigned : Option Handle} {n : Nat} {stops : Fault → Heap → Prop}
    (first : ∃ h', setPass v i e assigned h = .ok (.done ()) h' ∧ Stored h v cell i e h') :
    Performs (Only v) (h.Behind v) (retry (setPass v i e) (n + 1) assigned) h
      (fun _ h' => h.Leaves v ((h.sequence cell).store i e (h.isNA e)) h') stops := by
  obtain ⟨h', run, S⟩ := first
  exact .retry (.of_ok run S.moves ⟨S.updates.sequence, S.foreign⟩)

/-- A write comes to what the sequence makes of it. Only the handle of an orphaned string stops it
besides. -/
theorem setElem_performs (I : h.Intact) (found : h.vectors.find? v = some cell)
    (alive : ∀ o, e.object? = some o → h.isAlive o = true) (i : Nat) :
    Performs (Only v) (h.Behind v) (setElem v i e) h
      (fun _ h' => ∃ s, (h.sequence cell).set i e (h.isNA e) = .ok s ∧ h.Leaves v s h')
      (fun f h' => (h' = h ∧ (h.sequence cell).set i e (h.isNA e) = .error f) ∨
        (f = .error .contextDropped ∧ (∃ o, e.object? = some o ∧ Orphaned h o) ∧
          h'.sequence? v = some ((h.sequence cell).noting (h.isNA e)))) := by
  by_cases sort : e.type = cell.type
  · have typed : ¬ e.type ≠ (h.sequence cell).type := not_not_intro sort
    by_cases shared : cell.sharing.isShared = true
    · exact .of_error (setElem_shared found sort shared i) .refl
        (.inl ⟨rfl, (if_neg typed).trans (if_pos shared)⟩)
    · refine .after .refl (setElem_passes found sort (Bool.eq_false_iff.mpr shared)) ?_
      · by_cases lt : i < cell.length
        · have spec : (h.sequence cell).set i e (h.isNA e) =
              .ok ((h.sequence cell).store i e (h.isNA e)) :=
            (if_neg typed).trans ((if_neg shared).trans (if_pos lt))
          have sound : Sound h cell.type e := ⟨sort, alive⟩
          cases hb : cell.buffer with
          | some b =>
            exact (performs_of_stored (setPass_managed I found hb lt sound none)).mono
              (fun _ _ _ shows => ⟨_, spec, shows⟩) (fun _ _ _ => id)
          | none =>
            cases inline : InlineType.ofElemType? cell.type with
            | some t =>
              exact (performs_of_stored (setPass_inline I found hb inline lt sound none)).mono
                (fun _ _ _ shows => ⟨_, spec, shows⟩) (fun _ _ _ => id)
            | none =>
              have indirect := Heap.ofElemType_eq_none.mp inline
              obtain ⟨o, _, ho⟩ := object_of_indirect sound indirect
              exact (setPasses_indirect I found hb indirect lt sound ho).mono
                (fun _ _ _ shows => ⟨_, spec, shows⟩) (fun _ _ _ stop => .inr ⟨stop.1, ⟨o, ho, stop.2.1⟩, stop.2.2⟩)
        · exact .retry (.of_error (setPass_beyond found lt none) .refl
            (.inl ⟨rfl, (if_neg typed).trans ((if_neg shared).trans (if_neg lt))⟩))
  · exact .of_error (setElem_mistyped found sort i) .refl (.inl ⟨rfl, if_pos sort⟩)

end Op
end VectorHeap
