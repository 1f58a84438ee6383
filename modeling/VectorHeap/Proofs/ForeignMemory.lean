import VectorHeap.Proofs.DataAddress
import VectorHeap.Proofs.LiveBytes

/-! Foreign memory. A vector writes into the buffer that it adopted until its capacity is set. Then its slots
are copied to a block of its own, and it never touches the buffer again. No context counts the buffer, and
nobody frees it, whatever becomes of the vector. -/
namespace VectorHeap

namespace Heap

/-- An element was written into its slot of a foreign buffer, and into nothing else of it. -/
structure WritesSlot (cell : VectorCell) (i : Nat) (e : Elem) (b : BufferId) (foreign : ForeignBuffer)
    (h' : Heap) : Prop where
  typed : e.type = cell.type
  inside : i < cell.length
  width : e.encode.length = cell.type.nativeWidth
  room : (i + 1) * cell.type.nativeWidth ≤ foreign.bytes.length
  bytes : h'.buffers.find? b =
    some { foreign with bytes := foreign.bytes.overwrite (i * cell.type.nativeWidth) e.encode }

/-- The slots that a vector had in a foreign buffer are its own now, those that it still has byte for byte,
and only the block that they are in is counted. -/
structure CarriesOver (h : Heap) (v : VectorId) (cell : VectorCell) (n : Nat) (foreign : ForeignBuffer)
    (h' : Heap) : Prop where
  domestic : h'.foreign? v = none
  room : cell.type.nativeWidth * cell.capacity ≤ foreign.bytes.length
  size : (h'.contents (h'.backingOf (.vector v))).length = cell.type.nativeWidth * n
  kept : ∀ k < cell.type.nativeWidth * min cell.capacity n,
    (h'.contents (h'.backingOf (.vector v)))[k]? = foreign.bytes[k]?
  counted : h'.liveBytes cell.context = h.liveBytes cell.context + cell.type.nativeWidth * n
  elsewhere : ∀ c, c ≠ cell.context → h'.liveBytes c = h.liveBytes c

end Heap

/-! ### Single operations -/

namespace Op

variable {h : Heap} {v : VectorId} {cell : VectorCell} {b : BufferId} {foreign : ForeignBuffer} {p : PeerId}
  {q : Peer} {n : Nat}

/-- A write over foreign memory goes into the slot, or it leaves everything as it was. -/
theorem setElem_over (I : h.Intact) (O : h.Over v b foreign cell p q) (e : Elem) (i : Nat) :
    Outcome (setElem v i e) h (fun _ h' => Heap.WritesSlot cell i e b foreign h') (fun _ h' => h' = h) := by
  obtain ⟨t, inline⟩ := Heap.ofElemType_of_direct O.direct
  obtain ⟨sort, _⟩ := Heap.ofElemType_eq_some inline
  have width : cell.type.nativeWidth = t.width := congrArg ElemType.nativeWidth sort
  by_cases typed : e.type = cell.type
  · by_cases shared : cell.sharing.isShared = true
    · exact .of_error (setElem_shared O.found typed shared i) rfl
    have passes := setElem_passes (i := i) O.found typed (Bool.eq_false_iff.mpr shared)
    by_cases inside : i < cell.length
    · obtain ⟨x, rfl, _⟩ := value_of_type (typed.trans sort)
      have sound : Sound h cell.type (.ofValue t x) :=
        ⟨typed, fun o ho => absurd ((Heap.object_ofValue t x).symm.trans ho) (by simp)⟩
      obtain ⟨p', q', x', hp, hq, _, same, fits, run⟩ :=
        setPass_inline_run I O.found O.native inline inside sound none
      obtain ⟨_, peers, buffers, _⟩ := h.noted_rest v (.ofValue t x)
      have encode : (Elem.ofValue t x).encode = t.encode x' := same ▸ Elem.encode_ofValue t x'
      cases O.pointer.symm.trans hp
      cases O.peer.symm.trans (peers ▸ hq)
      have there : (h.noted v (.ofValue t x)).buffers.find? b = some foreign := by rw [buffers]; exact O.there
      rw [O.backing, Heap.contents, there] at fits
      refine .of_ok (passes.trans (bind_of_ok run)) ⟨typed, inside, ?_, width ▸ fits, ?_⟩
      · rw [encode, t.length_encode, width]
      · unfold Heap.overwrite
        rw [hq, Option.map_some, Option.getD_some, O.backing, encode, width]
        exact (Store.find_modify_self _ b _).trans (congrArg (Option.map _) there)
    · exact .of_error (passes.trans (bind_of_error (setPass_beyond O.found inside none))) rfl
  · exact .of_error (setElem_mistyped O.found typed i) rfl

theorem length_filledContents {t : InlineType} (inline : InlineType.ofElemType? cell.type = some t) :
    (filledContents h cell q t n).length = cell.type.nativeWidth * n := by
  have width : cell.type.nativeWidth = t.width :=
    congrArg ElemType.nativeWidth (Heap.ofElemType_eq_some inline).1
  have whole : (resizedContents h cell q n).length = cell.type.nativeWidth * n := Block.length_resized _ _
  unfold filledContents
  by_cases grown : cell.capacity ≤ n
  · have fits := Nat.mul_le_mul_right t.width grown
    rw [Bytes.length_overwrite, whole]
    rw [whole, t.length_encodeAll, List.length_replicate, width, Nat.sub_mul, Nat.mul_comm t.width]
    omega
  · rw [Nat.sub_eq_zero_of_le (Nat.le_of_not_le grown)]
    exact (congrArg List.length (Bytes.overwrite_nil _ _)).trans whole

theorem getElem?_filledContents {t : InlineType} (inline : InlineType.ofElemType? cell.type = some t)
    (room : cell.type.nativeWidth * cell.capacity ≤ (h.contents q.backing).length) {k : Nat}
    (kept : k < cell.type.nativeWidth * min cell.capacity n) :
    (filledContents h cell q t n)[k]? = (h.contents q.backing)[k]? := by
  have width : cell.type.nativeWidth = t.width :=
    congrArg ElemType.nativeWidth (Heap.ofElemType_eq_some inline).1
  have old : k < cell.type.nativeWidth * cell.capacity :=
    Nat.lt_of_lt_of_le kept (Nat.mul_le_mul_left _ (Nat.min_le_left ..))
  have new : k < cell.type.nativeWidth * n :=
    Nat.lt_of_lt_of_le kept (Nat.mul_le_mul_left _ (Nat.min_le_right ..))
  have moved : (resizedContents h cell q n)[k]? = (h.contents q.backing)[k]? := by
    have before : k < cell.capacity * cell.type.nativeWidth := by rw [Nat.mul_comm]; exact old
    rw [resizedContents, Bytes.getElem?_resized _ _ _ (by rw [List.length_take]; omega) new,
      List.getElem?_take, if_pos before]
  unfold filledContents
  by_cases grown : cell.capacity ≤ n
  · have whole : (resizedContents h cell q n).length = cell.type.nativeWidth * n :=
      Block.length_resized _ _
    have fits := Nat.mul_le_mul_left t.width grown
    rw [Bytes.getElem?_overwrite _ _ _ _ (by rw [whole, width, Nat.mul_comm]; exact fits), if_pos, moved]
    rw [← width, Nat.mul_comm]
    exact old
  · rw [Nat.sub_eq_zero_of_le (Nat.le_of_not_le grown)]
    exact (congrArg (·[k]?) (Bytes.overwrite_nil _ _)).trans moved

theorem Refitted.carriesOver {h' : Heap} (R : Refitted h v cell p q n h') (O : h.Over v b foreign cell p q) :
    h.CarriesOver v cell n foreign h' := by
  obtain ⟨t, q', inline, hq', filled⟩ := R.contents
  have before : h.contents q.backing = foreign.bytes := by
    rw [O.backing, Heap.contents, O.there]
    rfl
  have backing := Heap.backingOf_eq R.pointer hq'
  have size : (h'.contents q'.backing).length = cell.type.nativeWidth * n := by
    rw [filled, length_filledContents inline]
  have bare : h.ownedBytes p = 0 := by
    rw [Heap.ownedBytes_eq O.peer, O.backing]
    rfl
  have owned : h'.ownedBytes p = cell.type.nativeWidth * n := by
    rw [Heap.ownedBytes_eq hq', ← size]
    cases own : q'.backing with
    | external a i =>
      have foreign := Heap.foreign_iff_backingOf.mpr ⟨a, backing.trans own⟩
      exact absurd (R.foreign.symm.trans foreign) (by simp)
    | _ => rfl
  refine ⟨R.foreign, O.room, backing ▸ size, fun k kept => ?_, ?_, ?_⟩
  · rw [backing, filled, getElem?_filledContents inline (before ▸ O.room) kept, before]
  · cases R.metered with
    | still counted same =>
      rw [counted, ← owned, same p, bare, Nat.add_zero]
    | moved i own elsewhere counted same =>
      cases own
      rw [counted, bare, owned, Nat.sub_zero]
  · intro c other
    cases R.metered with
    | still counted same => exact counted c
    | moved i own elsewhere counted same => exact elsewhere c (Ne.symm other)

end Op

namespace Heap

variable {h h' h'' h₀ : Heap} {v : VectorId} {cell : VectorCell} {b : BufferId} {foreign : ForeignBuffer}
  {p : PeerId} {q : Peer} {n : Nat} {call : Call} {answered : Bool} {log later : List Entry}

/-! ### Calls and buffers -/

/-- Objects, their peers and foreign buffers that there were are there as they were. -/
structure Upholds (h h' : Heap) : Prop where
  alive : ∀ o, h.isAlive o = true → h'.isAlive o = true
  pointers : ∀ o p, h.peerOf? o = some p → h'.peerOf? o = some p
  peers : ∀ p q, h.peers.find? p = some q → h'.peers.find? p = some q
  buffers : ∀ b foreign, h.buffers.find? b = some foreign → h'.buffers.find? b = some foreign

theorem Extends.upholds (E : h.Extends h') : h.Upholds h' where
  alive o alive := (has_ofObject o).symm.trans (E.has ((has_ofObject o).trans alive))
  pointers _ _ := E.peerOf
  peers := E.peers
  buffers := E.buffers

theorem Rebinds.upholds (R : h.Rebinds h') : h.Upholds h' := by
  rw [R.rest]
  refine ⟨fun o alive => ?_, fun o p pointer => ?_, fun _ _ => id, fun _ _ => id⟩
  · cases o <;> exact alive
  · cases o <;> exact pointer

theorem Ended.upholds (I : h.Intact) (ok : call.Admissible h) (E : h.Ended call h' answered) :
    ∃ h₁, h.Moves (call.touches h) (call.writes h) h₁ ∧ h₁.Upholds h' := by
  have advanced : h.Advances (call.touches h) (call.writes h) h' →
      ∃ h₁, h.Moves (call.touches h) (call.writes h) h₁ ∧ h₁.Upholds h' := by
    rintro ⟨h₁, M, rfl | R⟩
    · exact ⟨h', M, (Extends.refl h').upholds⟩
    · exact ⟨h₁, M, R.upholds⟩
  cases E with
  | answer run => exact advanced ((call.ends I ok).ok run)
  | stop f run =>
    rcases (call.ends I ok).error run with ⟨_, A⟩ | ⟨_, h₁, M, R⟩
    · exact advanced A
    · exact ⟨h₁, M, (R.extends (M.intact I)).upholds⟩

theorem Ended.buffer (I : h.Intact) (ok : call.Admissible h) (E : h.Ended call h' answered)
    (there : h.buffers.find? b = some foreign)
    (spared : ∀ v i e, call = .set v i e → answered = true → h.foreign? v ≠ some b) :
    h'.buffers.find? b = some foreign := by
  by_cases written : call.writes h b
  · cases call with
    | set v i e =>
      obtain ⟨_, _, _, _, O⟩ := I.over written
      cases E with
      | answer run => exact absurd written (spared v i e rfl rfl)
      | stop f run => exact (Op.setElem_over I O e i).error run ▸ there
    | _ => exact written.elim
  · obtain ⟨h₁, M, kept⟩ := E.upholds I ok
    exact kept.buffers b foreign ((M.buffers I written (by rw [there]; rfl)).trans there)

theorem Logged.left (I : h₀.Intact) (run : Logged h₀ log h) {e : Entry} (mem : e ∈ log)
    (set : e.call = .setCapacity v n) (answer : e.answered = true) :
    v.index < h.vectors.next ∧ ¬ Adopted v b log := by
  induction run with
  | start => exact absurd mem List.not_mem_nil
  | @call log h h' answered run call ok ended ih =>
    have F := step_follows (run.intact I) (ended.step ok)
    rcases List.mem_cons.mp mem with rfl | old
    · have set : call = .setCapacity v n := set
      subst set
      have alive : h.isAlive (.vector v) = true :=
        (has_ofObject (.vector v)).symm.trans (ok.alive _ (List.mem_singleton_self _))
      refine ⟨F.issued (.vector v) (issued_of_isAlive alive), fun adopted => ?_⟩
      rcases adopted_cons_iff.mp adopted with ⟨_, _, _, _, _, other⟩ | ⟨_, kept⟩
      · exact absurd other (by simp)
      · exact kept answer n rfl
    · obtain ⟨issued, never⟩ := ih old
      refine ⟨F.issued (.vector v) issued, fun adopted => ?_⟩
      rcases adopted_cons_iff.mp adopted with ⟨_, fresh, _⟩ | ⟨before, _⟩
      · rw [fresh] at issued
        exact Nat.lt_irrefl _ issued
      · exact never before
  | tidy run last ih =>
    obtain ⟨issued, never⟩ := ih mem
    exact ⟨(last.sheds (run.intact I)).nexts.1 ▸ issued, never⟩

/-! ### Peers that own nothing -/

theorem Change.peer_or_alive {T : VectorId → Prop} {B : BufferId → Prop} (I : h.Intact)
    (C : Change T B h h') (found : h.peers.find? p = some q) :
    h'.peers.find? p = some q ∨ h.isAlive q.owner = true := by
  cases C with
  | growth G => exact .inl ((G.extends I).peers p q found)
  | environs R buffers => exact .inl ((R.peer p (by simp)).trans found)
  | update v cell s touched U metered buffers continues behind =>
    by_cases mine : cell.peer = some p
    · have owner := ((I.vectors v cell U.found).peer p q mine found).1
      exact .inr (owner ▸ (Store.contains_iff _ v).mpr ⟨cell, U.found⟩)
    · exact .inl ((U.revises.peer p mine).trans found)
  | text s cell p' there pointer R metered formed buffers =>
    by_cases mine : p' = p
    · subst mine
      have owner := ((I.strings s cell there).peer p' q pointer found).1
      exact .inr (owner ▸ (Store.contains_iff _ s).mpr ⟨cell, there⟩)
    · exact .inl ((R.peer p (by simpa using mine)).trans found)

theorem Moves.peer_or_alive {T : VectorId → Prop} {B : BufferId → Prop} (I : h.Intact)
    (M : h.Moves T B h') (found : h.peers.find? p = some q) :
    h'.peers.find? p = some q ∨ h'.isAlive q.owner = true := by
  induction M with
  | refl => exact .inl found
  | tail first last ih =>
    have I₁ := first.intact I
    rcases ih with same | alive
    · exact (last.peer_or_alive I₁ same).imp_right (last.moves.isAlive I₁)
    · exact .inr (last.moves.isAlive I₁ alive)

theorem Ended.peer_or_alive (I : h.Intact) (ok : call.Admissible h) (E : h.Ended call h' answered)
    (found : h.peers.find? p = some q) :
    h'.peers.find? p = some q ∨ h'.isAlive q.owner = true := by
  obtain ⟨h₁, M, kept⟩ := E.upholds I ok
  exact (M.peer_or_alive I found).imp (kept.peers p q) (kept.alive q.owner)

/-- A peer of a vector that owns no block, be the vector alive or not. -/
structure Unladen (h : Heap) (v : VectorId) (p : PeerId) : Prop where
  vector : v.index < h.vectors.next
  peer : p.index < h.peers.next
  pointer : h.isAlive (.vector v) = true → h.peerOf? (.vector v) = some p
  owner : ∀ q, h.peers.find? p = some q → q.owner = .vector v ∧ q.backing.ownedBytes = 0

theorem unladen_of_over (I : h.Intact) (O : h.Over v b foreign cell p q) : h.Unladen v p where
  vector := Store.lt_next_of_find _ v cell O.found
  peer := Store.lt_next_of_find _ p q O.peer
  pointer _ := (peerOf_vector O.found).trans O.pointer
  owner q' hq' := by
    cases O.peer.symm.trans hq'
    refine ⟨((I.vectors v cell O.found).peer p q O.pointer O.peer).1, ?_⟩
    rw [O.backing]
    rfl

theorem Unladen.ownedBytes (U : h.Unladen v p) : h.ownedBytes p = 0 := by
  cases found : h.peers.find? p with
  | none => rw [Heap.ownedBytes, found]; rfl
  | some q => rw [ownedBytes_eq found, (U.owner q found).2]

/-- As long as it is over foreign memory the vector gives its peer no block. -/
theorem Unladen.step (I : h.Intact) (U : h.Unladen v p) (ok : call.Admissible h)
    (E : h.Ended call h' answered) (adopter : h'.has (.vector v) = true → h'.foreign? v = some b) :
    h'.Unladen v p := by
  have I' := step_intact I (E.step ok)
  have F := step_follows I (E.step ok)
  obtain ⟨h₁, M, kept⟩ := E.upholds I ok
  have pointer : h'.isAlive (.vector v) = true → h'.peerOf? (.vector v) = some p := fun alive =>
    kept.pointers _ p (M.peerOf I (U.pointer (F.object (.vector v) U.vector alive)))
  refine ⟨F.issued (.vector v) U.vector, Nat.lt_of_lt_of_le U.peer F.peers, pointer, fun q' hq' => ?_⟩
  obtain ⟨q, hq, owner, _⟩ := F.peer p q' U.peer hq'
  obtain ⟨mine, bare⟩ := U.owner q hq
  refine ⟨owner.trans mine, ?_⟩
  rcases E.peer_or_alive I ok hq with same | alive
  · cases same.symm.trans hq'
    exact bare
  · rw [mine] at alive
    obtain ⟨foreign, cell, p', q'', O⟩ := I'.over (adopter ((has_ofObject (.vector v)).trans alive))
    cases (pointer alive).symm.trans ((peerOf_vector O.found).trans O.pointer)
    cases O.peer.symm.trans hq'
    rw [O.backing]
    rfl

theorem Unladen.tidy (I : h.Intact) (U : h.Unladen v p) (t : h.Tidies h') : h'.Unladen v p := by
  have S := t.sheds I
  refine ⟨S.nexts.1 ▸ U.vector, S.nexts.2.2.2 ▸ U.peer,
    fun alive => (S.peerOf alive).trans (U.pointer (S.isAlive alive)), fun q' hq' => ?_⟩
  obtain ⟨q, hq, rfl | ⟨fades, _⟩⟩ := S.peers p q' hq'
  · exact U.owner q' hq
  · obtain ⟨mine, bare⟩ := U.owner q hq
    refine ⟨fades.owner.trans mine, ?_⟩
    rcases fades.backing with same | gone
    · rw [same, bare]
    · rw [gone]
      rfl

theorem Logged.unladen (I : h₀.Intact) (t : h₀.Traced []) (run : Logged h₀ log h) (adopted : Adopted v b log)
    (U : h.Unladen v p) (rest : Logged h later h')
    (unset : ∀ e ∈ later, e.answered = true → ∀ n, e.call ≠ .setCapacity v n) :
    Logged h₀ (later ++ log) h' ∧ Adopted v b (later ++ log) ∧ h'.Unladen v p := by
  induction rest with
  | start => exact ⟨run, adopted, U⟩
  | @call later g h' answered rest call ok ended ih =>
    obtain ⟨first, before, U'⟩ := ih (fun e he => unset e (List.mem_cons_of_mem _ he))
    have last := first.call call ok ended
    have after := before.later _ _ (unset _ List.mem_cons_self)
    exact ⟨last, after, U'.step (first.intact I) ok ended
      (fun there => ((last.traced I t).foreign v b there).mpr after)⟩
  | tidy rest last ih =>
    obtain ⟨first, before, U'⟩ := ih unset
    exact ⟨first.tidy last, before, U'.tidy (first.intact I) last⟩

/-! ### Ends of peers -/

/-- A peer is let go: with its vector, by a worker whose turn it is, or by anybody who releases it or hands
it in. -/
inductive Unwinds (p : PeerId) (h : Heap) : Heap → Prop
  | bury (v : VectorId) (pointer : h.peerOf? (.vector v) = some p) : Unwinds p h (h.bury (.vector v))
  | work (c : ContextId) (ctx : Context) (found : h.contexts.find? c = some ctx) (rest : List PeerId)
      (queue : ctx.reclaimer.queue = p :: rest) : Unwinds p h (h.work c)
  | release (c : ContextId) : Unwinds p h (h.release c p).1
  | reclaim (c : ContextId) : Unwinds p h (h.reclaim c p)

/-- Contexts count the bytes that they counted, and foreign memory is as it was. -/
structure KeepsCounts (h h' : Heap) : Prop where
  buffers : h'.buffers = h.buffers
  counted : ∀ c, h'.liveBytes c = h.liveBytes c

theorem KeepsCounts.trans (K : h.KeepsCounts h') (K' : h'.KeepsCounts h'') : h.KeepsCounts h'' where
  buffers := K'.buffers.trans K.buffers
  counted c := (K'.counted c).trans (K.counted c)

theorem modifyReclaimer_keepsCounts (h : Heap) (c : ContextId) (f : Reclaimer → Reclaimer) :
    h.KeepsCounts (h.modifyReclaimer c f) where
  buffers := rfl
  counted := h.liveBytes_modifyContext c _ (fun _ => rfl)

theorem release_keepsCounts (bare : h.ownedBytes p = 0) (c : ContextId) :
    h.KeepsCounts (h.release c p).1 := by
  cases found : h.peers.find? p with
  | none =>
    rw [release, found]
    exact ⟨rfl, fun _ => rfl⟩
  | some q =>
    rw [ownedBytes_eq found] at bare
    rw [release_eq found]
    split
    · exact ⟨rfl, fun _ => rfl⟩
    · refine ⟨rfl, h.liveBytes_modifyContext c _ (fun ctx => ?_)⟩
      rw [liveBytes_dropContents, bare, liveBytes_remove, Nat.sub_zero]

theorem finishPeer_keepsCounts (bare : h.ownedBytes p = 0) (c : ContextId) :
    h.KeepsCounts (h.finishPeer c p) :=
  (release_keepsCounts bare c).trans (modifyReclaimer_keepsCounts _ c (·.finish (h.release c p).2))

theorem reclaim_keepsCounts (bare : h.ownedBytes p = 0) (c : ContextId) : h.KeepsCounts (h.reclaim c p) := by
  have counted := modifyReclaimer_keepsCounts h c (·.count)
  rcases reclaim_cases h c p with ⟨running, queued⟩ | direct | ⟨panic, refused⟩
  · rw [queued]
    exact counted.trans (modifyReclaimer_keepsCounts _ c _)
  · rw [direct]
    exact counted.trans (finishPeer_keepsCounts (h := h.modifyReclaimer c (·.count)) bare c)
  · rw [refused]
    exact ⟨rfl, counted.counted⟩

theorem Unwinds.keepsCounts (bare : h.ownedBytes p = 0) (unwinds : Unwinds p h h') : h.KeepsCounts h' := by
  cases unwinds with
  | release c => exact release_keepsCounts bare c
  | reclaim c => exact reclaim_keepsCounts bare c
  | work c ctx found rest queue =>
    let h₁ := h.modifyReclaimer c (fun _ => { ctx.reclaimer with queue := rest })
    have turn : h.work c = h₁.finishPeer c p := by
      simp only [Heap.work, found, Option.bind_some, Reclaimer.dequeue?, queue, h₁]
    rw [turn]
    exact (modifyReclaimer_keepsCounts h c _).trans (finishPeer_keepsCounts (h := h₁) bare c)
  | bury v pointer =>
    obtain ⟨cell, found, hp⟩ := Option.bind_eq_some_iff.mp pointer
    have handed : h.bury (.vector v) = (h.without (.vector v)).reclaim cell.context p := by
      simp only [Heap.bury, legacy?, found, Option.bind_some, hp, Option.map_some]
    have reclaimed := reclaim_keepsCounts (h := h.without (.vector v)) bare cell.context
    rw [handed]
    exact ⟨reclaimed.buffers, reclaimed.counted⟩

/-! ### Runs -/

/-- After any run in which no peer of a live object was released by hand, for every foreign buffer. No call
changes it but a write that is answered to a vector that is over it, and nothing that happens between calls
does. While a vector is over it: a write that is answered puts the bytes of the element into its slot, and
those alone; a capacity that is set leaves the vector the slots that it still has, byte for byte, in a block
of its own, which is what its context counts on top; and letting go of its peer, now or in any later state
before that, takes no byte off any count. Once a capacity of it was set a vector is never over it again. -/
theorem foreign_memory_after_run {supply : Nat → Nat → Option Address} (run : Logged { supply } log h)
    (there : h.buffers.find? b = some foreign) :
    (∀ call h' answered, call.Admissible h → h.Ended call h' answered →
      (∀ v i e, call = .set v i e → answered = true → ¬ Adopted v b log) →
      h'.buffers.find? b = some foreign) ∧
    (∀ h', h.Tidies h' → h'.buffers.find? b = some foreign) ∧
    (∀ v cell, Adopted v b log → h.vectors.find? v = some cell →
      (∀ i e h', Op.setElem v i e h = .ok () h' → WritesSlot cell i e b foreign h') ∧
      (∀ n h', Op.setCapacity v n h = .ok () h' → h.CarriesOver v cell n foreign h') ∧
      ∃ p, cell.peer = some p ∧ ∀ later h', Logged h later h' →
        (∀ e ∈ later, e.answered = true → ∀ n, e.call ≠ .setCapacity v n) →
        ∀ h'', Unwinds p h' h'' → h'.KeepsCounts h'') ∧
    ∀ e ∈ log, ∀ v n, e.call = .setCapacity v n → e.answered = true → ¬ Adopted v b log := by
  have I₀ := intact_of_supply supply
  have I := run.intact I₀
  have t₀ : Traced { supply } [] := ⟨nofun, fun v b there => absurd (has_vector_iff.mp there) (by simp)⟩
  have t := run.traced I₀ t₀
  refine ⟨fun call h' answered ok E spared => ?_, fun h' last => (last.sheds I).buffers ▸ there,
    fun v cell adopted found => ?_, fun e mem v n set answer => (run.left I₀ mem set answer).2⟩
  · refine E.buffer I ok there (fun v i e set answer adopter => spared v i e set answer ?_)
    obtain ⟨_, cell, _, _, O⟩ := I.over adopter
    exact (t.foreign v b (has_vector_iff.mpr ⟨cell, O.found⟩)).mp adopter
  · have adopter := (t.foreign v b (has_vector_iff.mpr ⟨cell, found⟩)).mpr adopted
    obtain ⟨foreign', cell', p, q, O⟩ := I.over adopter
    cases found.symm.trans O.found
    cases there.symm.trans O.there
    refine ⟨fun i e h' answer => (Op.setElem_over I O e i).ok answer,
      fun n h' answer => ((Op.setCapacity_over I O n).ok answer).carriesOver O,
      p, O.pointer, fun later h' rest unset h'' unwinds => ?_⟩
    obtain ⟨_, _, U⟩ := run.unladen I₀ t₀ adopted (unladen_of_over I O) rest unset
    exact unwinds.keepsCounts U.ownedBytes

/-- A vector writes into what it adopted, grows, and takes along what it wrote. -/
theorem foreign_memory_after_growth :
    ∃ log h h', Logged {} log h ∧ (h.buffers.find? ⟨0⟩).map (·.bytes) = some [1, 9, 3] ∧
      Op.setCapacity ⟨0⟩ 4 h = .ok () h' ∧ h'.buffers.find? ⟨0⟩ = h.buffers.find? ⟨0⟩ ∧
      (∀ k < 3, (h'.contents (h'.backingOf (.vector ⟨0⟩)))[k]? = ([1, 9, 3] : Bytes)[k]?) ∧
      h'.liveBytes ⟨0⟩ = h.liveBytes ⟨0⟩ + 4 := by
  let h₁ : Heap := (Call.newContext .default).op.after {}
  let h₂ : Heap := (Call.newBuffer [1, 2, 3]).op.after h₁
  let h₃ : Heap := (Call.adopt ⟨0⟩ .raw (some ⟨0⟩) 3).op.after h₂
  let h₄ : Heap := (Call.set ⟨0⟩ 1 (.raw 9)).op.after h₃
  let log : List Entry := [⟨h₂, .adopt ⟨0⟩ .raw (some ⟨0⟩) 3, true⟩, ⟨h₁, .newBuffer [1, 2, 3], true⟩,
    ⟨{}, .newContext .default, true⟩]
  have run₃ : Logged {} log h₃ := by
    refine ((Logged.start.call (.newContext .default) ⟨by decide, by simp⟩ (.answer rfl)).call
      (.newBuffer [1, 2, 3]) ⟨by decide, by simp⟩ (.answer rfl)).call (.adopt ⟨0⟩ .raw (some ⟨0⟩) 3)
      ⟨by decide, ?_⟩ (.answer rfl)
    rintro _ _ _ _ ⟨⟩
    exact ⟨_, rfl, by decide⟩
  have adopted : Adopted ⟨0⟩ ⟨0⟩ log := .adopt h₂ ⟨0⟩ .raw 3 _ rfl
  have write : Op.setElem ⟨0⟩ 1 (.raw 9) h₃ = .ok () h₄ := Op.run_of_ok (by decide +kernel)
  have grow : Op.setCapacity ⟨0⟩ 4 h₄ = .ok () (Op.after (Op.setCapacity ⟨0⟩ 4) h₄) :=
    Op.run_of_ok (by decide +kernel)
  have run₄ := run₃.call (.set ⟨0⟩ 1 (.raw 9)) ⟨by decide, by simp⟩ (.answer write)
  obtain ⟨_, _, first, _⟩ := foreign_memory_after_run (b := ⟨0⟩) run₃ rfl
  have written := (first ⟨0⟩ _ adopted rfl).1 1 (.raw 9) h₄ write
  obtain ⟨frame, _, second, _⟩ := foreign_memory_after_run run₄ written.bytes
  have kept := frame (.setCapacity ⟨0⟩ 4) _ true ⟨by decide +kernel, by simp⟩ (.answer grow) (by simp)
  obtain ⟨cell, found, shape⟩ : ∃ cell, h₄.vectors.find? ⟨0⟩ = some cell ∧
      (cell.type, cell.capacity, cell.context) = (.raw, 3, ⟨0⟩) :=
    Option.map_eq_some_iff.mp (by decide +kernel)
  have carried := (second ⟨0⟩ cell (adopted.later _ _ (by simp)) found).2.1 4 _ grow
  cases cell
  cases shape
  exact ⟨_, h₄, _, run₄, congrArg (Option.map _) written.bytes, grow, kept.trans written.bytes.symm,
    carried.kept, carried.counted⟩

/-- A vector whose peer is released by hand has nothing to take along when its capacity is set. -/
theorem foreign_memory_after_release :
    ∃ log h h', Logged {} log h ∧ Adopted ⟨0⟩ ⟨0⟩ log ∧
      (h.buffers.find? ⟨0⟩).map (·.bytes) = some [1, 2] ∧
      Op.setCapacity ⟨0⟩ 3 (h.release ⟨0⟩ ⟨0⟩).1 = .ok () h' ∧
      h'.contents (h'.backingOf (.vector ⟨0⟩)) = [0, 0, 0] := by
  have run₁ : Logged {} [⟨{}, .newContext .default, true⟩] _ :=
    Logged.start.call (.newContext .default) ⟨by decide, by simp⟩ (.answer rfl)
  have run₂ := run₁.call (.newBuffer [1, 2]) ⟨by decide, by simp⟩ (.answer rfl)
  have run₃ := run₂.call (.adopt ⟨0⟩ .raw (some ⟨0⟩) 2)
    ⟨by decide, fun _ _ _ _ own => by cases own; exact ⟨_, rfl, by decide⟩⟩ (.answer rfl)
  exact ⟨_, _, _, run₃, .adopt _ _ _ _ _ rfl, by decide, Op.run_of_ok (by decide +kernel),
    by decide +kernel⟩

end Heap
end VectorHeap
