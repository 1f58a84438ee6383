import VectorHeap.Proofs.Capacity
import VectorHeap.Vector.Promotion

/-! Promotion. The contents move into native memory and nothing about the vector's sequence shows it. -/
namespace VectorHeap

/-! ### Objects and bytes of a buffer -/

theorem Op.bufferObjects_inline {b : Buffer} (direct : b.type.isIndirect = false) :
    Op.bufferObjects b = [] := by
  refine List.filterMap_eq_nil_iff.mpr (fun e he => ?_)
  have sort := b.typed e he
  cases e with
  | str s => simp [← sort, Elem.type, ElemType.isIndirect] at direct
  | list v => simp [← sort, Elem.type, ElemType.isIndirect] at direct
  | _ => rfl

theorem toElem_filterMap {es : List Elem} (indirect : ∀ e ∈ es, e.type.isIndirect = true) :
    (es.filterMap Elem.object?).map Object.toElem = es := by
  induction es with
  | nil => rfl
  | cons e es ih =>
    obtain ⟨head, tail⟩ := List.forall_mem_cons.mp indirect
    obtain ⟨o, rfl⟩ := Elem.eq_toElem head
    rw [List.filterMap_cons, Object.object_toElem, List.map_cons, ih tail]

theorem Op.bufferObjects_indirect {b : Buffer} (indirect : b.type.isIndirect = true) :
    (Op.bufferObjects b).map Object.toElem = b.slots :=
  toElem_filterMap (fun e he => b.typed e he ▸ indirect)

theorem Op.length_bufferObjects {b : Buffer} (indirect : b.type.isIndirect = true) :
    (Op.bufferObjects b).length = b.capacity := by
  rw [Buffer.capacity, ← Op.bufferObjects_indirect indirect, List.length_map]

theorem encode_slots {t : InlineType} {es : List Elem} (typed : ∀ e ∈ es, e.type = t.elemType) :
    es.flatMap Elem.encode = t.encodeAll (es.filterMap (Elem.value? t)) := by
  induction es with
  | nil => rfl
  | cons e es ih =>
    obtain ⟨head, tail⟩ := List.forall_mem_cons.mp typed
    obtain ⟨x, rfl, value⟩ := Op.value_of_type head
    rw [List.flatMap_cons, ih tail, List.filterMap_cons, value, Elem.encode_ofValue]
    rfl

theorem Op.length_encodeBuffer {b : Buffer} {handles : List (Object × Handle)}
    (same : handles.map Prod.fst = Op.bufferObjects b) :
    (Op.encodeBuffer b handles).length = b.type.nativeWidth * b.capacity := by
  unfold Op.encodeBuffer
  cases inline : InlineType.ofElemType? b.type with
  | some t =>
    obtain ⟨sort, direct⟩ := Heap.ofElemType_eq_some inline
    have typed : ∀ e ∈ b.slots, e.type = t.elemType := fun e he => (b.typed e he).trans sort
    have all := congrArg List.length (Op.ofValue_filterMap typed)
    rw [List.length_map] at all
    rw [direct, if_neg (by decide), encode_slots typed, t.length_encodeAll, all, Nat.mul_comm, sort]
    rfl
  | none =>
    have indirect := Heap.ofElemType_eq_none.mp inline
    have count := congrArg List.length same
    rw [List.length_map, Op.length_bufferObjects indirect] at count
    rw [indirect, if_pos rfl, Bytes.length_flatMap handles (fun e _ => length_handleBytes e.2), count,
      ElemType.nativeWidth_indirect indirect, Nat.mul_comm]

namespace Op

variable {h : Heap} {v : VectorId} {cell : VectorCell} {b : Buffer} {p : PeerId} {q : Peer}
  {handles : List (Object × Handle)}

/-! ### Moving out -/

theorem resized_self {bs : Bytes} {size : Nat} (same : bs.length = size) :
    Block.resized bs size = bs := by
  subst same
  simp [Block.resized, Bytes.zeros]

theorem nativeBacking_denied (I : h.Intact) (found : h.vectors.find? v = some cell)
    (denied : Denied h cell.context (cell.type.nativeWidth * cell.capacity)) (b : Buffer)
    (handles : List (Object × Handle)) :
    nativeBacking cell b handles h = refusal (cell.type.nativeWidth * cell.capacity) h := by
  unfold nativeBacking refusal
  by_cases overflow : UInt64.size ≤ cell.type.nativeWidth * cell.capacity
  · rw [if_pos overflow]
    exact bind_of_error (by rw [byteSize_run, if_pos overflow])
  · rw [bind_of_ok (by rw [byteSize_run, if_neg overflow]), if_neg overflow]
    by_cases zero : cell.type.nativeWidth * cell.capacity = 0
    · obtain ⟨ctx, hctx⟩ := I.context_of_vector found
      rw [zero] at denied ⊢
      rw [if_pos rfl, map_run, sentinel_denied (Heap.has_context_iff.mpr ⟨ctx, hctx⟩) denied]
      rfl
    · have refused := denied.2
      rw [blockSize_of_pos zero] at refused ⊢
      rw [if_neg zero, ownBlock_run, if_pos refused]

theorem nativeBacking_run (I : h.Intact) (found : h.vectors.find? v = some cell)
    (managed : cell.buffer = some b) (same : handles.map Prod.fst = bufferObjects b)
    (granted : ¬ Denied h cell.context (cell.type.nativeWidth * cell.capacity)) :
    ∃ backing h', nativeBacking cell b handles h = .ok backing h' ∧ h.Revises none none h' ∧
      h'.buffers = h.buffers ∧ h'.vectors = h.vectors ∧ h'.peers = h.peers ∧
      h'.Backed cell backing ∧ h'.contents backing = encodeBuffer b handles ∧
      ∀ a i, backing ≠ .external a i := by
  have M := (I.vectors v cell found).managed b managed
  have size := length_encodeBuffer same
  rw [M.type, M.capacity] at size
  unfold nativeBacking
  by_cases zero : cell.type.nativeWidth * cell.capacity = 0
  · obtain ⟨ctx, hctx⟩ := I.context_of_vector found
    rw [zero] at granted
    obtain ⟨a, h', run, nonzero, shared, R, buffers, vectors, peers⟩ :=
      sentinel_run I (Heap.has_context_iff.mpr ⟨ctx, hctx⟩) granted
    refine ⟨.empty a, h', ?_, R, buffers, vectors, peers, ⟨nonzero, shared, ?_⟩, ?_, by simp⟩
    · rw [bind_of_ok (by rw [byteSize_run, zero, if_neg (by decide)]), if_pos rfl, map_run, run]
    · exact (Nat.mul_eq_zero.mp zero).resolve_left (Nat.ne_of_gt cell.type.nativeWidth_pos)
    · exact (List.length_eq_zero_iff.mp (size.trans zero)).symm
  · have room : ¬ h.Refuses (cell.type.nativeWidth * cell.capacity) := fun refused =>
      granted ⟨fun none => absurd none zero, by rwa [blockSize_of_pos zero]⟩
    have run := ownBlock_run (h := h) (encodeBuffer b handles)
      (cell.type.nativeWidth * cell.capacity) none
    rw [if_neg room, resized_self size] at run
    have word : ¬ UInt64.size ≤ cell.type.nativeWidth * cell.capacity :=
      Nat.not_le.mpr (lt_of_granted room)
    rw [bind_of_ok (by rw [byteSize_run, if_neg word]), if_neg zero]
    refine ⟨_, _, run, h.revises_placed _ _, rfl, rfl, rfl,
      ⟨h.placement_ne_zero _ none, size, ?_⟩, rfl, by simp⟩
    rw [size]
    exact Nat.pos_of_ne_zero zero

def movedOut (h : Heap) (v : VectorId) (cell : VectorCell) (p : PeerId) (q : Peer) (backing : Backing)
    (handles : List (Object × Handle)) : Heap :=
  let install := h.modifyPeer p (fun peer => { peer with
    backing, length := cell.length, capacity := cell.capacity, pins := handles.map Prod.fst })
  let flip := (install.modifyRegistry cell.context (·.addContents q.handle backing)).modifyContext
    cell.context (fun ctx => { ctx with switches := ctx.switches.flip cell.type })
  flip.modifyVector v (fun cell => { cell with buffer := none })

theorem movedOut_revises (h : Heap) (v : VectorId) (cell : VectorCell) (p : PeerId) (q : Peer)
    (backing : Backing) (handles : List (Object × Handle)) :
    h.Revises (some v) (some p) (movedOut h v cell p q backing handles) := by
  refine Heap.Revises.modifyVector ?_ v _ rfl (fun _ => rfl)
  refine Heap.Revises.modifyContext ?_ _ _ (fun _ => rfl) (fun _ _ => rfl) (fun _ _ _ => id)
    (fun _ _ => .inl) (fun ctx t flipped => ?_)
  · refine Heap.Revises.modifyRegistry ?_ _ _ (fun r => accounts_addContents r _ _)
    exact (Heap.Revises.refl h _ _).modifyPeer p _ rfl (fun _ => rfl)
  · rw [Switches.isPromoted_flip, flipped, Bool.or_true]

theorem context_movedOut {ctx : Context} (found : h.contexts.find? cell.context = some ctx)
    (v : VectorId) (p : PeerId) (q : Peer) (backing : Backing) (handles : List (Object × Handle)) :
    (movedOut h v cell p q backing handles).contexts.find? cell.context = some { ctx with
      registry := ctx.registry.addContents q.handle backing
      switches := ctx.switches.flip cell.type } := by
  refine (Store.find_modify_self _ _ _).trans ?_
  refine (congrArg (Option.map _) ((Store.find_modify_self _ _ _).trans
    (congrArg (Option.map _) found))).trans ?_
  rfl

theorem movedOut_meters {ctx : Context} (found : h.contexts.find? cell.context = some ctx)
    (hp : cell.peer = some p) (hq : h.peers.find? p = some q) (bare : q.backing = .unallocated)
    (v : VectorId) (backing : Backing) (handles : List (Object × Handle)) :
    h.Meters cell.context cell.peer (movedOut h v cell p q backing handles) := by
  rw [hp]
  refine Heap.meters_of_contents found (context_movedOut found v p q backing handles) hq
    ((h.peers.find_modify_self p _).trans (by rw [hq]; rfl)) (fun c' other => ?_)
    (fun i other => h.peers.find_modify_ne _ other) ?_
  · exact (Store.find_modify_ne _ _ other).trans (Store.find_modify_ne _ _ other)
  · rw [bare]
    exact liveBytes_addContents _ _ _

theorem movedOut_foreign (found : h.vectors.find? v = some cell) (hp : cell.peer = some p)
    (hq : h.peers.find? p = some q) {backing : Backing} (own : ∀ a b, backing ≠ .external a b) :
    (movedOut h v cell p q backing handles).foreign? v = none := by
  refine Option.eq_none_iff_forall_ne_some.mpr (fun b there => ?_)
  obtain ⟨cell', p', q', a, found', hp', hq', external⟩ := Heap.foreign_eq_some_iff.mp there
  cases ((Store.find_modify_self _ v _).trans (congrArg _ found)).symm.trans found'
  cases hp.symm.trans hp'
  cases ((Store.find_modify_self _ p _).trans (congrArg _ hq)).symm.trans hq'
  exact own a b external

theorem movedOut_switched {ctx : Context} (found : h.contexts.find? cell.context = some ctx)
    (v : VectorId) (p : PeerId) (q : Peer) (backing : Backing) (handles : List (Object × Handle)) :
    (movedOut h v cell p q backing handles).isPromoted cell.context cell.type = true := by
  rw [Heap.isPromoted, context_movedOut found, Option.any_some, Switches.isPromoted_flip,
    decide_eq_true rfl, Bool.true_or]

theorem moved_elements (M : h.Managed cell b) (same : handles.map Prod.fst = bufferObjects b)
    {h' : Heap} {cell' : VectorCell} {q' : Peer} (type : cell'.type = cell.type)
    (capacity : cell'.capacity = cell.capacity) (pins : q'.pins = handles.map Prod.fst)
    (contents : h'.contents q'.backing = encodeBuffer b handles) :
    h'.nativeElements cell' q' = b.slots := by
  cases inline : InlineType.ofElemType? cell.type with
  | some t =>
    obtain ⟨sort, direct⟩ := Heap.ofElemType_eq_some inline
    have typed : ∀ e ∈ b.slots, e.type = t.elemType := fun e he =>
      (b.typed e he).trans (M.type.trans sort)
    have all := ofValue_filterMap typed
    have count := congrArg List.length all
    rw [List.length_map] at count
    rw [Heap.nativeElements_inline (type ▸ inline), contents, encodeBuffer, M.type, direct,
      if_neg (by decide), encode_slots typed, capacity, ← M.capacity, Buffer.capacity, ← count]
    have decoded := t.decodeAll_encodeAll (b.slots.filterMap (Elem.value? t)) []
    rw [List.append_nil] at decoded
    rw [decoded, all]
  | none =>
    have indirect := Heap.ofElemType_eq_none.mp inline
    rw [Heap.nativeElements_indirect (type ▸ indirect), pins, same,
      bufferObjects_indirect (M.type ▸ indirect)]

theorem movedOut_updates (I : h.Intact) (found : h.vectors.find? v = some cell)
    (managed : cell.buffer = some b) (hp : cell.peer = some p) (hq : h.peers.find? p = some q)
    (same : handles.map Prod.fst = bufferObjects b) (handed : Handed h handles) {backing : Backing}
    (backed : h.Backed cell backing) (contents : h.contents backing = encodeBuffer b handles) :
    h.Updates v cell (h.sequence cell) (movedOut h v cell p q backing handles) := by
  have F := I.vectors v cell found
  have M := F.managed b managed
  let h' := movedOut h v cell p q backing handles
  let q' : Peer := { q with
    backing, length := cell.length, capacity := cell.capacity, pins := handles.map Prod.fst }
  have R := movedOut_revises h v cell p q backing handles
  have found' : h'.vectors.find? v = some { cell with buffer := none } :=
    (h.vectors.find_modify_self v _).trans (by rw [found]; rfl)
  have hq' : h'.peers.find? p = some q' :=
    (h.peers.find_modify_self p _).trans (by rw [hq]; rfl)
  obtain ⟨ctx, hctx⟩ := I.context_of_vector found
  have after : h'.contents q'.backing = encodeBuffer b handles := by
    rw [← contents]
    exact Heap.contents_of_buffers (fun _ _ _ => rfl)
  have U := Heap.updates_of_native I found hp hq R found' hq' rfl F.window
    { length := rfl
      capacity := rfl
      backed := (backed.transport (R.sentinels _) (fun i _ => R.buffers i)).of_cell rfl rfl rfl
      switched := movedOut_switched hctx v p q backing handles
      indirect := fun indirect =>
        { count := by
            rw [show q'.pins = bufferObjects b from same,
              length_bufferObjects (M.type.symm ▸ indirect)]
            exact M.capacity
          typed := fun o ho => by
            have there := List.mem_map_of_mem (f := Object.toElem) ho
            rw [show q'.pins = bufferObjects b from same,
              bufferObjects_indirect (M.type.symm ▸ indirect)] at there
            exact (b.typed _ there).trans M.type
          word := fun i o pin => by
            rw [show q'.pins = handles.map Prod.fst from rfl, List.getElem?_map] at pin
            obtain ⟨e, he, rfl⟩ := Option.map_eq_some_iff.mp pin
            obtain ⟨_, handle, named⟩ := handed e (List.mem_of_getElem? he)
            rw [R.handleOf, handle, after, encodeBuffer, if_pos (M.type.symm ▸ indirect)]
            exact ⟨named, Bytes.slot_flatMap handles (fun e _ => length_handleBytes e.2) he⟩ }
      inline := fun direct => same.trans (bufferObjects_inline (by rw [M.type]; exact direct)) }
    (fun o ho => by
      obtain ⟨e, he, rfl⟩ := List.mem_map.mp ho
      exact (handed e he).1)
  have shows : h'.nativeElements { cell with buffer := none } q' = b.slots :=
    moved_elements M same rfl rfl rfl after
  rw [shows, ← Heap.elements_managed managed] at U
  exact U

/-- The peer takes over, and the vector's sequence does not change. -/
theorem moveOut_performs (I : h.Intact) (found : h.vectors.find? v = some cell)
    (managed : cell.buffer = some b) (hp : cell.peer = some p)
    (same : handles.map Prod.fst = bufferObjects b) (handed : Handed h handles) :
    Performs (Only v) Nowhere (moveOut v cell p b handles) h
      (fun _ h' => h'.sequence? v = some (h.sequence cell) ∧ h'.foreign? v = none)
      (fun f h' => h.Leaves v (h.sequence cell) h' ∧ NoRoom h cell.type cell.capacity f) := by
  unfold moveOut
  by_cases denied : Denied h cell.context (cell.type.nativeWidth * cell.capacity)
  · obtain ⟨f, h', stops, noRoom, unmoved⟩ := refusal_run h cell.type cell.capacity denied
    obtain ⟨M, leaves⟩ := leaves_of_refused unmoved found
    have refused := (nativeBacking_denied I found denied b handles).trans stops
    exact .of_error (bind_of_error refused) M ⟨leaves, noRoom⟩
  · obtain ⟨backing, h₁, run, R, buffers, vectors, peers, backed, contents, own⟩ :=
      nativeBacking_run I found managed same denied
    have first : h.Moves (Only v) Nowhere h₁ := (Heap.Change.environs R buffers).moves
    have found₁ : h₁.vectors.find? v = some cell := vectors ▸ found
    obtain ⟨q, hq, _⟩ := I.peer_of_vector found hp
    have bare := ((I.vectors v cell found).managed b managed).bare p q hp hq
    obtain ⟨ctx, hctx⟩ := (first.intact I).context_of_vector found₁
    have hq₁ : h₁.peers.find? p = some q := peers ▸ hq
    have U := movedOut_updates (first.intact I) found₁ managed hp hq₁ same (handed.later I first)
      backed contents
    have shows : h₁.sequence cell = h.sequence cell := by
      rw [Heap.sequence, Heap.sequence, Heap.elements_managed managed, Heap.elements_managed managed]
    refine .of_ok (a := ⟨⟩) ((bind_of_ok run).trans ?_) (first.trans
      (Heap.Change.update v cell _ (show Only v v from rfl) U
        (movedOut_meters hctx hp hq₁ bare.1 v _ _) (fun _ _ => rfl) (.refl _ _)
        (fun _ b there => absurd ((movedOut_foreign found₁ hp hq₁ own).symm.trans there)
          (by simp))).moves)
      ⟨shows ▸ U.sequence, movedOut_foreign found₁ hp hq₁ own⟩
    refine (bind_of_ok (install_run hq₁ bare.1 ..)).trans ?_
    rfl

/-! ### Handles of the elements -/

theorem handlesOf_performs (I : h.Intact) (os : List Object) (alive : ∀ o ∈ os, h.isAlive o = true) :
    Performs Nowhere Nowhere (handlesOf os) h
      (fun handles h' => handles.map Prod.fst = os ∧ Handed h' handles)
      (fun f _ => f = .error .contextDropped ∧ ∃ o ∈ os, Orphaned h o) := by
  induction os generalizing h with
  | nil => exact .pure ⟨rfl, by simp [Handed]⟩
  | cons o os ih =>
    obtain ⟨there, rest⟩ := List.forall_mem_cons.mp alive
    refine ((ensureHandle_performs I there).mono (fun _ _ _ => id) (fun f h' _ stop =>
      ⟨stop.1, o, List.mem_cons_self .., stop.2⟩)).bind ?_
    rintro k h₁ M ⟨handle, named⟩
    have I₁ := M.intact I
    have later := ih I₁ (fun o ho => M.isAlive I (rest o ho))
    refine (later.mono (fun _ _ moves o => And.intro moves o) ?_).bind ?_
    · rintro f h' _ ⟨stop, o', ho', orphaned⟩
      exact ⟨stop, o', List.mem_cons_of_mem _ ho', orphaned.earlier I M (rest o' ho')⟩
    rintro handles h₂ _ ⟨moves, same, handed⟩
    refine .pure ⟨congrArg (o :: ·) same, List.forall_mem_cons.mpr ⟨?_, handed⟩⟩
    exact ⟨moves.isAlive I₁ (M.isAlive I there), (moves.handleOf I₁ (handle.symm ▸ named)).trans handle,
      named⟩

theorem elementHandles_performs (I : h.Intact) (found : h.vectors.find? v = some cell) :
    Performs Nowhere Nowhere (elementHandles v) h
      (fun handles h' => Handed h' handles ∧
        ∀ b, cell.buffer = some b → handles.map Prod.fst = bufferObjects b)
      (fun f _ => f = .error .contextDropped ∧
        ∃ e ∈ h.elements cell, ∃ o, e.object? = some o ∧ Orphaned h o) := by
  refine .after .refl (vector_bind found _) ?_
  cases hb : cell.buffer with
  | none => exact .pure ⟨by simp [Handed], by simp⟩
  | some b =>
    have slots := Heap.elements_managed (h := h) hb
    refine (handlesOf_performs I (bufferObjects b) (fun o ho => ?_)).mono ?_ ?_
    · obtain ⟨e, he, same⟩ := List.mem_filterMap.mp ho
      exact I.alive_of_mem found (slots ▸ he) same
    · rintro handles h' _ ⟨same, handed⟩
      refine ⟨handed, fun b' hb' => ?_⟩
      cases hb'
      exact same
    · rintro f h' _ ⟨stop, o, ho, orphaned⟩
      obtain ⟨e, he, same⟩ := List.mem_filterMap.mp ho
      exact ⟨stop, e, slots ▸ he, o, same, orphaned⟩

/-! ### Promotion -/

theorem promotePass_performs (I : h.Intact) (found : h.vectors.find? v = some cell)
    (handed : Handed h handles)
    (objects : ∀ b, cell.buffer = some b → handles.map Prod.fst = bufferObjects b) :
    Performs (Only v) Nowhere (promotePass v handles) h
      (fun r h' => ∃ k, r = .done k ∧ h.Leaves v (h.sequence cell) h' ∧
        h'.handleOf (.vector v) = k ∧ k.isSome = true)
      (fun f h' => h.Leaves v (h.sequence cell) h' ∧ NoRoom h cell.type cell.capacity f) := by
  unfold promotePass
  have peer : Performs Nowhere Nowhere (ensureVectorPeer v) h _ (fun _ _ => False) :=
    ensureVectorPeer_performs I found
  refine Performs.bind ((peer.mono (fun _ _ moves o => And.intro moves o)
    (fun _ _ _ => False.elim)).widen (fun _ => False.elim) (fun _ => id)) ?_
  rintro p h₁ _ ⟨moves, pointer⟩
  have I₁ := moves.intact I
  have still := moves.leaves I (Heap.sequence_eq_some_iff.mpr ⟨cell, found, rfl⟩)
  obtain ⟨p', found₁, _, same, _⟩ := moves.kept I found
  cases (Heap.peerOf_vector found₁).symm.trans pointer
  obtain ⟨q, hq, _⟩ := I₁.peer_of_object pointer
  have handle := Heap.handleOf_eq pointer hq
  have named := I₁.handleOf_isSome pointer
  refine .after .refl (peer_bind hq _) (.after .refl (vector_bind found₁ _) ?_)
  cases hb : cell.buffer with
  | none =>
    exact .pure ⟨_, rfl, still, handle, handle ▸ named⟩
  | some b =>
    have unchanged : ¬ (cell.type.isIndirect = true ∧ handles.map Prod.fst ≠ bufferObjects b) :=
      fun changed => changed.2 (objects b hb)
    simp only [if_neg unchanged]
    refine ((moveOut_performs I₁ found₁ hb rfl (objects b hb) (handed.later I moves)).mono
      (fun _ _ moves o => And.intro moves o) ?_).bind (fun _ h₂ _ ⟨last, shows, own⟩ => .pure ?_)
    · rintro f h₂ _ ⟨leaves, noRoom⟩
      exact ⟨still.after (same ▸ leaves), noRoom.since moves.asks⟩
    · refine ⟨_, rfl, ⟨shows.trans (congrArg some same), by simp [own]⟩, ?_, handle ▸ named⟩
      exact (last.handleOf I₁ named).trans handle

/-- Nothing about the vector's sequence shows a promotion. It does not go through for a string whose
context is gone, nor when there is no memory for the slots. -/
theorem promote_performs (I : h.Intact) (found : h.vectors.find? v = some cell) :
    Performs (Only v) Nowhere (promote v) h
      (fun k h' => h.Leaves v (h.sequence cell) h' ∧ h'.handleOf (.vector v) = k ∧
        k.isSome = true)
      (fun f h' => h.Leaves v (h.sequence cell) h' ∧
        (NoRoom h cell.type cell.capacity f ∨ (f = .error .contextDropped ∧
          ∃ e ∈ h.elements cell, ∃ o, e.object? = some o ∧ Orphaned h o))) := by
  have shows := Heap.sequence_eq_some_iff.mpr ⟨cell, found, rfl⟩
  unfold promote
  refine Performs.bind (((elementHandles_performs I found).mono
    (fun _ _ moves o => And.intro moves o) ?_).widen (fun _ => False.elim) (fun _ => id)) ?_
  · exact fun f h₁ moves stop => ⟨moves.leaves I shows, .inr stop⟩
  · rintro handles h₁ _ ⟨moves, handed, objects⟩
    have still := moves.leaves I shows
    obtain ⟨p₁, found₁, _, same, _⟩ := moves.kept I found
    have pass := promotePass_performs (moves.intact I) found₁ handed objects
    rw [same] at pass
    refine .retry_done (pass.mono ?_ (fun _ _ _ stop =>
      ⟨still.after stop.1, .inl (stop.2.since moves.asks)⟩))
    rintro r h' _ ⟨k, done, last, handle⟩
    exact ⟨k, done, still.after last, handle⟩

end Op
end VectorHeap
