import VectorHeap.Proofs.Postings

/-! Vectors that come up. Every operation but one makes them with all of their slots in use, whatever heap
it starts from and whatever becomes of it. -/
namespace VectorHeap

namespace Heap

variable {h₀ h h' : Heap} {v : VectorId} {cell : VectorCell}

/-- Vectors that came up since have all of their slots in use. -/
def Packed (h₀ h : Heap) : Prop :=
  ∀ v cell, h.vectors.find? v = some cell → h₀.has (.vector v) = false → cell.length = cell.capacity

namespace Packed

theorem refl (h : Heap) : h.Packed h := by
  intro v cell found new
  exact absurd ((has_vector_iff.mpr ⟨cell, found⟩).symm.trans new) (by decide)

theorem of_same (P : h₀.Packed h) (same : h'.vectors = h.vectors) : h₀.Packed h' :=
  fun v cell found new => P v cell (same ▸ found) new

theorem modifyVector (P : h₀.Packed h) (v : VectorId) (f : VectorCell → VectorCell)
    (kept : h₀.has (.vector v) = true ∨
      ∀ cell, (f cell).length = cell.length ∧ (f cell).capacity = cell.capacity) :
    h₀.Packed (h.modifyVector v f) := by
  intro w cell' found new
  change (h.vectors.modify v f).find? w = some cell' at found
  rw [Store.find_modify] at found
  split at found
  · rename_i same
    obtain ⟨cell, there, rfl⟩ := Option.map_eq_some_iff.mp found
    rcases kept with old | kept
    · exact absurd ((same ▸ old).symm.trans new) (by decide)
    · rw [(kept cell).1, (kept cell).2]
      exact P w cell there new
  · exact P w cell' found new

theorem add (P : h₀.Packed h) (full : cell.length = cell.capacity) :
    h₀.Packed { h with vectors := h.vectors.add cell } := by
  intro w cell' found new
  rcases Store.eq_or_find_of_find_add found with ⟨_, rfl⟩ | there
  · exact full
  · exact P w cell' there new

theorem erase (P : h₀.Packed h) (v : VectorId) :
    h₀.Packed { h with vectors := h.vectors.erase v } :=
  fun w cell found new => P w cell (Store.find_of_find_erase found).1 new

theorem overwrite (P : h₀.Packed h) (p : PeerId) (offset : Nat) (data : Bytes) :
    h₀.Packed (h.overwrite p offset data) := by
  refine P.of_same ?_
  unfold Heap.overwrite
  split <;> rfl

end Packed
end Heap

namespace Op

variable {α β σ : Type} {h₀ h : Heap} {c : ContextId} {v : VectorId}

/-- An operation leaves the vectors that came up since a heap with all of their slots in use. -/
structure Packing (h₀ : Heap) (op : Op α) : Prop where
  packs : ∀ h, h₀.Packed h → Outcome op h (fun _ h' => h₀.Packed h') (fun _ h' => h₀.Packed h')

namespace Packing

theorem of_still {op : Op α} (S : Still op) : Packing h₀ op := by
  refine ⟨fun h P => Outcome.mono (S.same h) ?_ ?_⟩
  · rintro _ _ rfl
    exact P
  · rintro _ _ rfl
    exact P

theorem pure (a : α) : Packing h₀ (Pure.pure a : Op α) := of_still (.pure a)

theorem throw (f : Fault) : Packing h₀ (MonadExcept.throw f : Op α) := of_still (.throw f)

theorem bind {x : Op β} {f : β → Op α} (first : Packing h₀ x) (rest : ∀ b, Packing h₀ (f b)) :
    Packing h₀ (x >>= f) :=
  ⟨fun h P => Outcome.bind (first.packs h P) (fun b h₁ => (rest b).packs h₁)⟩

theorem map {x : Op β} (g : β → α) (first : Packing h₀ x) : Packing h₀ (g <$> x) :=
  ⟨fun h P => Outcome.map (first.packs h P)⟩

theorem ite {p : Prop} [Decidable p] {x y : Op α} (first : Packing h₀ x) (second : Packing h₀ y) :
    Packing h₀ (if p then x else y) := by
  split
  · exact first
  · exact second

theorem guard {p : Prop} [Decidable p] {f : Fault} {x : β → Op α} {y : Op α} (rest : Packing h₀ y) :
    Packing h₀ (if p then MonadExcept.throw f >>= x else y) :=
  ite (.of_still ⟨fun _ => rfl⟩) rest

theorem retry {pass : σ → Op (Pass σ α)} (one : ∀ s, Packing h₀ (pass s)) (n : Nat) (s : σ) :
    Packing h₀ (Op.retry pass n s) := by
  induction n generalizing s with
  | zero => exact throw .unsettled
  | succ n ih =>
    refine (one s).bind (fun r => ?_)
    cases r with
    | done a => exact pure a
    | again s' => exact ih s'

theorem modify {g : Heap → Heap} (kept : ∀ h, h₀.Packed h → h₀.Packed (g h)) :
    Packing h₀ (MonadState.modifyGet (fun h => (PUnit.unit, g h)) : Op PUnit) :=
  ⟨kept⟩

theorem aside {f : Heap → α × Heap} (same : ∀ h, (f h).2.vectors = h.vectors) :
    Packing h₀ (MonadState.modifyGet f : Op α) :=
  ⟨fun h P => P.of_same (same h)⟩

theorem revise (v : VectorId) {f : VectorCell → VectorCell} (kept : h₀.has (.vector v) = true ∨
    ∀ cell, (f cell).length = cell.length ∧ (f cell).capacity = cell.capacity) :
    Packing h₀ (MonadState.modifyGet (fun h => (PUnit.unit, h.modifyVector v f)) : Op PUnit) :=
  modify (fun _ P => P.modifyVector v f kept)

end Packing

/-! ### Peers -/

theorem register_packing (c : ContextId) (owner : Object) (site : String) :
    Packing h₀ (register c owner site) := by
  refine Packing.bind (.of_still (.context c)) (fun ctx => .bind (.aside (fun _ => rfl)) (fun p => ?_))
  refine .bind (.aside (fun _ => rfl)) (fun _ => .guard (.bind (.aside (fun _ => rfl)) (fun _ => .pure p)))

theorem ensureVectorPeer_packing (v : VectorId) : Packing h₀ (ensureVectorPeer v) := by
  refine Packing.bind (.of_still (.vector v)) (fun cell => ?_)
  cases cell.peer with
  | some p => exact .pure p
  | none =>
    exact (register_packing ..).bind (fun p =>
      .bind (.revise v (.inr (fun _ => ⟨rfl, rfl⟩))) (fun _ => .pure p))

theorem ensureStringPeer_packing (s : StringId) : Packing h₀ (ensureStringPeer s) := by
  refine Packing.bind (.of_still (.string s)) (fun cell => .bind (.of_still .get) (fun h => ?_))
  refine .ite ?_ (.of_still ⟨fun _ => rfl⟩)
  cases cell.peer with
  | some p => exact .pure p
  | none => exact (register_packing ..).bind (fun p => .bind (.aside (fun _ => rfl)) (fun _ => .pure p))

theorem ensurePeer_packing (o : Object) : Packing h₀ (ensurePeer o) := by
  cases o with
  | vector v => exact ensureVectorPeer_packing v
  | string s => exact ensureStringPeer_packing s

theorem ensureHandle_packing (o : Object) : Packing h₀ (ensureHandle o) :=
  (ensurePeer_packing o).bind (fun p => .bind (.of_still (.peer p)) (fun _ => .pure _))

theorem handlesOf_packing (os : List Object) : Packing h₀ (handlesOf os) := by
  induction os with
  | nil => exact .pure _
  | cons o os ih => exact (ensureHandle_packing o).bind (fun _ => ih.bind (fun _ => .pure _))

theorem elementHandles_packing (v : VectorId) : Packing h₀ (elementHandles v) := by
  refine Packing.bind (.of_still (.vector v)) (fun cell => ?_)
  cases cell.buffer with
  | some b => exact handlesOf_packing _
  | none => exact .pure _

/-! ### Contents -/

theorem place_packing (bytes : Nat) (moved : Option Address) : Packing h₀ (place bytes moved) :=
  ⟨fun _ P => P.of_same rfl⟩

theorem request_packing (size : Nat) (moved : Option Address)
    (answer : (Nat → Bool) → Except Error Bytes) : Packing h₀ (request size moved answer) :=
  .bind (.of_still .get) (fun _ => (place_packing size moved).bind (fun _ =>
    .bind (.of_still (.ofError _)) (fun _ => .pure _)))

theorem sentinel_packing (c : ContextId) : Packing h₀ (sentinel c) := by
  refine Packing.bind (.of_still (.context c)) (fun ctx => ?_)
  cases ctx.sentinel with
  | some a => exact .pure a
  | none => 
    exact (request_packing ..).bind (fun _ => .bind (.aside (fun _ => rfl)) (fun _ => .pure _))

theorem ownBlock_packing (old : Bytes) (size : Nat) (moved : Option Address) :
    Packing h₀ (ownBlock old size moved) :=
  (request_packing ..).bind (fun _ => .pure _)

theorem install_packing (c : ContextId) (p : PeerId) (backing : Backing) (length capacity : Nat)
    (pins : List Object) : Packing h₀ (install c p backing length capacity pins) :=
  .bind (.of_still (.peer p)) (fun _ => .guard
    (.bind (.aside (fun _ => rfl)) (fun _ => .aside (fun _ => rfl))))

theorem resizedBacking_packing (q : Peer) (width size : Nat) (empty : Address) :
    Packing h₀ (resizedBacking q width size empty) := by
  refine .ite (.pure _) ?_
  cases q.backing with
  | owned a bytes => exact ownBlock_packing ..
  | external a b =>
    exact .bind (.of_still (.bind .get (fun _ => .guard (.pure _)))) (fun _ => ownBlock_packing ..)
  | empty a => exact ownBlock_packing ..
  | unallocated => exact ownBlock_packing ..

theorem reallocate_packing (c : ContextId) (p : PeerId) (width slots : Nat) (empty : Address) :
    Packing h₀ (reallocate c p width slots empty) := by
  refine Packing.bind (.of_still (byteSize_still ..)) (fun size => .bind (.of_still (.peer p)) (fun q => ?_))
  exact (resizedBacking_packing ..).bind (fun _ =>
    .bind (.aside (fun _ => rfl)) (fun _ => .aside (fun _ => rfl)))

theorem writeSlots_packing (p : PeerId) (width slot : Nat) (data : Bytes) :
    Packing h₀ (writeSlots p width slot data) :=
  .bind (.of_still (accessed_still ..)) (fun _ => .modify (fun _ P => P.overwrite p _ data))

theorem writeHandles_packing (p : PeerId) (slot : Nat) (elements : List (Object × Handle)) :
    Packing h₀ (writeHandles p slot elements) :=
  .ite (.pure _) ((writeSlots_packing ..).bind (fun _ => .aside (fun _ => rfl)))

theorem fillMissing_packing (p : PeerId) (type : ElemType) (slot count : Nat) :
    Packing h₀ (fillMissing p type slot count) := by
  unfold fillMissing
  split
  · exact .ite (.pure _) (writeSlots_packing ..)
  · exact .pure _

theorem nativeBacking_packing (cell : VectorCell) (b : Buffer) (handles : List (Object × Handle)) :
    Packing h₀ (nativeBacking cell b handles) :=
  .bind (.of_still (byteSize_still ..)) (fun _ => .ite ((sentinel_packing _).map _) (ownBlock_packing ..))

/-! ### Strings and vectors -/

theorem naString_packing (c : ContextId) : Packing h₀ (naString c) := by
  refine Packing.bind (.of_still (.context c)) (fun ctx => ?_)
  cases ctx.naString with
  | some s => exact .pure s
  | none => exact .bind (.aside (fun _ => rfl)) (fun s => .bind (.aside (fun _ => rfl)) (fun _ => .pure s))

theorem newVector_packing (c : ContextId) (b : Buffer) : Packing h₀ (newVector c b) :=
  .bind (.of_still .get) (fun _ => .bind (.of_still (.ofPanic _)) (fun _ => ⟨fun _ P => P.add rfl⟩))

theorem emptyLists_packing (c : ContextId) (n : Nat) : Packing h₀ (emptyLists c n) := by
  induction n with
  | zero => exact .pure _
  | succ n ih => exact (newVector_packing ..).bind (fun _ => ih.bind (fun _ => .pure _))

theorem fillers_packing (c : ContextId) (type : ElemType) (count : Nat) :
    Packing h₀ (fillers c type count) := by
  unfold fillers
  split
  · exact .pure _
  · refine .ite (.pure _) (.ite ?_ ?_)
    · exact (naString_packing c).bind (fun _ => .pure _)
    · exact (emptyLists_packing c count).bind (fun _ => .pure _)

theorem resizeBuffer_packing (c : ContextId) (b : Buffer) (n : Nat) : Packing h₀ (resizeBuffer c b n) := by
  refine Packing.bind (.of_still (.ofPanic _)) (fun _ => (fillers_packing ..).bind (fun new => ?_))
  cases b.refill? n new with
  | some b' => exact .pure b'
  | none => exact .throw _

/-- Only the vector that it answers may have slots to spare. -/
theorem withCapacity_packed (h : Heap) (c : ContextId) (type : ElemType) (length capacity : Nat) :
    Outcome (withCapacity c type length capacity) h
      (fun w h' => ∀ v cell, h'.vectors.find? v = some cell → h.has (.vector v) = false → v ≠ w →
        cell.length = cell.capacity)
      (fun _ h' => h.Packed h') := by
  by_cases short : capacity < length
  · exact Outcome.of_error (by rw [withCapacity, if_pos short]; rfl) (.refl h)
  · rw [withCapacity, if_neg short]
    refine ((resizeBuffer_packing c _ capacity).packs h (.refl h)).bind (fun b h₁ P => ?_)
    cases complete : b.complete? h₁.isNA length with
    | error e =>
      exact Outcome.of_error (by unfold overBuffer; rw [get_bind, complete]; rfl) P
    | ok flag =>
      refine Outcome.of_ok (by unfold overBuffer; rw [get_bind, complete]; rfl) ?_
      intro v cell found new other
      rcases Store.eq_or_find_of_find_add found with ⟨same, _⟩ | there
      · exact absurd same other
      · exact P v cell there new

/-! ### Length and capacity -/

theorem setLength_packing (old : h₀.has (.vector v) = true) (n : Nat) : Packing h₀ (setLength v n) := by
  refine Packing.bind (.of_still (.vector v)) (fun cell => .guard ?_)
  refine .bind (.revise v (.inl old)) (fun _ => ?_)
  cases cell.peer with
  | none => exact .pure _
  | some p => exact .bind (.of_still (.peer p)) (fun _ => .ite (.aside (fun _ => rfl)) (.pure _))

theorem indirectFiller_packing (c : ContextId) (type : ElemType) : Packing h₀ (indirectFiller c type) :=
  .ite ((naString_packing c).map _) ((newVector_packing ..).map _)

theorem nativeFillers_packing (c : ContextId) (type : ElemType) (n : Nat) :
    Packing h₀ (nativeFillers c type n) := by
  induction n with
  | zero => exact .pure _
  | succ n ih =>
    exact (indirectFiller_packing c type).bind (fun o => (ensureHandle_packing o).bind
      (fun _ => ih.bind (fun _ => .pure _)))

theorem resizeNative_packing (old : h₀.has (.vector v) = true) (cell : VectorCell) (p : PeerId) (n : Nat)
    (made : List (Object × Handle)) : Packing h₀ (resizeNative v cell p n made) := by
  refine Packing.bind (.ite (sentinel_packing _) (.pure 0)) (fun empty =>
    (reallocate_packing ..).bind (fun _ => .ite ?_ ?_))
  · exact (writeHandles_packing ..).bind (fun _ =>
      .bind (.aside (fun _ => rfl)) (fun _ => .revise v (.inl old)))
  · exact (fillMissing_packing ..).bind (fun _ => .revise v (.inl old))

theorem setCapacity_packing (old : h₀.has (.vector v) = true) (n : Nat) : Packing h₀ (setCapacity v n) := by
  refine .retry (fun made => .bind (.of_still (.vector v)) (fun cell => .guard ?_)) _ _
  cases cell.buffer with
  | some b =>
    exact (resizeBuffer_packing ..).bind (fun _ => .bind (.revise v (.inl old)) (fun _ => .pure _))
  | none =>
    refine Packing.bind (.of_still (nativePeer_still cell)) (fun p => .ite ?_ ?_)
    · exact (nativeFillers_packing ..).bind (fun _ => .pure _)
    · exact (resizeNative_packing old ..).bind (fun _ => .pure _)

/-! ### Writing -/

theorem storeAt_packing (v : VectorId) (cell : VectorCell) (i : Nat) (e : Elem) (assigned : Option Handle) :
    Packing h₀ (storeAt v cell i e assigned) := by
  refine Packing.bind (.of_still (managed_still cell)) (fun buffer => ?_)
  cases buffer with
  | some b =>
    refine Packing.bind (.of_still (.ofPanic _)) (fun b' => ?_)
    cases b' with
    | some b' => exact .bind (.revise v (.inr (fun _ => ⟨rfl, rfl⟩))) (fun _ => .pure _)
    | none => exact .throw _
  | none =>
    refine Packing.bind (.of_still (nativePeer_still cell)) (fun p => ?_)
    cases e.object? with
    | none => exact (writeSlots_packing ..).bind (fun _ => .pure _)
    | some o =>
      cases assigned with
      | some k => exact (writeHandles_packing ..).bind (fun _ => .pure _)
      | none => exact (ensureHandle_packing o).bind (fun _ => .pure _)

theorem setElem_packing (v : VectorId) (i : Nat) (e : Elem) : Packing h₀ (setElem v i e) := by
  refine Packing.bind (.of_still (.vector v)) (fun cell => .bind (.of_still (checkType_still ..)) (fun _ =>
    .guard (.retry (fun assigned => .bind (.of_still (.vector v)) (fun cell => ?_)) _ _)))
  have noted : Packing h₀ (noteMissing v e) :=
    .bind (.of_still (.bind .get (fun _ => .pure _))) (fun _ =>
      .ite (.revise v (.inr (fun _ => ⟨rfl, rfl⟩))) (.pure _))
  exact .bind (.of_still (checkIndex_still cell i)) (fun _ => noted.bind (fun _ => storeAt_packing ..))

/-! ### Sharing and copies -/

theorem setSharing_packing (v : VectorId) (f : SharingState → SharingState) :
    Packing h₀ (setSharing v f) :=
  .bind (.of_still (.vector v)) (fun _ =>
    .bind (.revise v (.inr (fun _ => ⟨rfl, rfl⟩))) (fun _ => .pure _))

theorem markAllShared_packing (es : List Elem) : Packing h₀ (markAllShared es) := by
  induction es with
  | nil => exact .pure _
  | cons e es ih =>
    cases e with
    | list w => exact .bind ((setSharing_packing w _).map _) (fun _ => ih)
    | _ => exact ih

theorem copy_packing (v : VectorId) : Packing h₀ (copy v) :=
  .bind (.of_still (.vector v)) (fun cell => .bind (.of_still (usedBuffer_still cell)) (fun _ =>
    (markAllShared_packing _).bind (fun _ => newVector_packing ..)))

theorem writable_packing (v : VectorId) : Packing h₀ (writable v) :=
  .bind (.of_still (.vector v)) (fun _ => .ite (copy_packing v) (.pure v))

/-! ### Promotion -/

theorem moveOut_packing (v : VectorId) (cell : VectorCell) (p : PeerId) (b : Buffer)
    (handles : List (Object × Handle)) : Packing h₀ (moveOut v cell p b handles) :=
  (nativeBacking_packing ..).bind (fun _ => (install_packing ..).bind (fun _ =>
    .bind (.aside (fun _ => rfl)) (fun _ => .revise v (.inr (fun _ => ⟨rfl, rfl⟩)))))

theorem promote_packing (v : VectorId) : Packing h₀ (promote v) := by
  refine (elementHandles_packing v).bind (fun handles => .retry (fun handles => ?_) _ handles)
  refine (ensureVectorPeer_packing v).bind (fun p => .bind (.of_still (.peer p)) (fun q =>
    .bind (.of_still (.vector v)) (fun cell => ?_)))
  cases cell.buffer with
  | none => exact .pure _
  | some b =>
    refine .ite ?_ ?_
    · exact (elementHandles_packing v).bind (fun _ => .pure _)
    · exact (moveOut_packing ..).bind (fun _ => .pure _)

theorem materialize_packing (s : StringId) : Packing h₀ (materialize s) := by
  have answer : ∀ p, Packing h₀ (do return (← peer p).backing.address) := fun p =>
    .bind (.of_still (.peer p)) (fun _ => .pure _)
  refine Packing.bind (.of_still (.string s)) (fun cell => (ensureStringPeer_packing s).bind (fun p =>
    .bind (.of_still (.peer p)) (fun q => .ite (answer p) ?_)))
  exact (ownBlock_packing ..).bind (fun _ => (install_packing ..).bind (fun _ => answer p))

/-! ### Foreign buffers and bindings -/

theorem orDiscard_packing {op : Op α} (v : VectorId) (P : Packing h₀ op) : Packing h₀ (orDiscard v op) := by
  refine ⟨fun h start => ?_⟩
  have packed := P.packs h start
  have discarded := orDiscard_run v op h
  cases run : op h with
  | ok a h' => exact Outcome.of_ok (discarded.trans (by rw [run])) (packed.ok run)
  | error f h' => exact Outcome.of_error (discarded.trans (by rw [run])) ((packed.error run).erase v)

theorem adopt_packing (c : ContextId) (type : ElemType) (buffer : Option BufferId) (length : Nat) :
    Packing h₀ (adopt c type buffer length) := by
  refine .guard ?_
  cases buffer with
  | none => exact .throw _
  | some b =>
    refine Packing.bind (.of_still .get) (fun h => .bind (.of_still (.live _)) (fun foreign =>
      .bind (.aside (fun _ => rfl)) (fun _ => .bind ⟨fun _ P => P.add rfl⟩ (fun v => ?_))))
    exact (orDiscard_packing v (ensureVectorPeer_packing v)).bind (fun p =>
      (install_packing ..).bind (fun _ => .pure v))

theorem insertBinding_packing (f : FrameId) (name : String) (value : Value) :
    Packing h₀ (insertBinding f name value) :=
  .bind (.of_still (.bind (.frame f) (fun _ => .pure _))) (fun _ =>
    .bind (.aside (fun _ => rfl)) (fun _ => .pure _))

theorem assign_packing (f : FrameId) (name : String) (value : Value) :
    Packing h₀ (assign f name value) := by
  refine Packing.bind (.of_still (.bind (.frame f) (fun _ => .pure _))) (fun previous => ?_)
  cases value.vector? with
  | none => exact insertBinding_packing f name value
  | some v =>
    refine .ite (insertBinding_packing f name value) ?_
    exact .bind ((setSharing_packing v _).map _) (fun _ => insertBinding_packing f name value)

theorem passArguments_packing (as : List Argument) : Packing h₀ (passArguments as) := by
  induction as with
  | nil => exact .pure _
  | cons a as ih =>
    have passed : Packing h₀ (passArgument a) := by
      refine .ite (.pure _) ?_
      cases a.value.sharingTarget? with
      | none => exact .pure _
      | some v => exact (setSharing_packing v _).bind (fun _ => .pure _)
    exact .bind (passed.map _) (fun _ => ih)

end Op

namespace Call

open Op

theorem packing {h : Heap} {call : Call} (ok : call.Admissible h)
    (plain : ∀ c type length capacity, call ≠ .withCapacity c type length capacity) :
    Packing h call.op := by
  cases call with
  | newContext config => exact ⟨fun _ P => P.of_same rfl⟩
  | newBuffer bytes => exact ⟨fun _ P => P.of_same rfl⟩
  | newString c text => exact ⟨fun _ P => P.of_same rfl⟩
  | naString c => exact .map _ (naString_packing c)
  | newVector c type es =>
    exact .map _ (.bind (.of_still (bufferOf_still type es)) (fun _ => newVector_packing ..))
  | withCapacity c type length capacity => exact absurd rfl (plain c type length capacity)
  | adopt c type buffer length => exact .map _ (adopt_packing c type buffer length)
  | get v i => exact .map _ (.of_still (getElem_still v i))
  | getValue v t i => exact .map _ (.of_still (getValue_still v t i))
  | toList v => exact .map _ (.of_still (toList_still v))
  | toValues v t => exact .map _ (.of_still (toValues_still v t))
  | set v i e => exact setElem_packing v i e
  | setLength v n => exact setLength_packing (ok.alive _ (List.mem_singleton_self _)) n
  | setCapacity v n => exact setCapacity_packing (ok.alive _ (List.mem_singleton_self _)) n
  | ensureHandle o => exact .map _ (ensureHandle_packing o)
  | promote v => exact .map _ (promote_packing v)
  | materialize s => exact .map _ (materialize_packing s)
  | copy v => exact .map _ (copy_packing v)
  | writable v => exact .map _ (writable_packing v)
  | applyTrigger v t => exact .map _ (setSharing_packing v _)
  | markBound v => exact .map _ (setSharing_packing v _)
  | markShared v => exact .map _ (setSharing_packing v _)
  | lookup c k => exact .map _ (.of_still (lookup_still c k))
  | flip c type => exact .aside (fun _ => rfl)
  | newFrame => exact ⟨fun _ P => P.of_same rfl⟩
  | cloneFrame f => exact .map _ (.bind (.of_still (.frame f)) (fun _ => ⟨fun _ P => P.of_same rfl⟩))
  | insertBinding f name value => exact .map _ (insertBinding_packing f name value)
  | assign f name value => exact .map _ (assign_packing f name value)
  | removeBinding f name =>
    exact .map _ (.bind (.of_still (.bind (.frame f) (fun _ => .pure _))) (fun _ =>
      .bind (.aside (fun _ => rfl)) (fun _ => .pure _)))
  | passArguments as => exact passArguments_packing as

end Call
end VectorHeap
