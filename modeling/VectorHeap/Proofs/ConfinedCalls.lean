import VectorHeap.Proofs.Confined

/-! Calls are confined to what they refer to. -/
namespace VectorHeap

namespace Op

variable {α β : Type} {S : Region} {c : ContextId} {v : VectorId} {s : StringId} {p : PeerId}
  {f : FrameId} {o : Object}

/-! ### Adopting -/

theorem orDiscard_confined {R : α → Prop} {op : Op α} (own : S.refs (.vector v)) (C : Confined S op R) :
    Confined S (orDiscard v op) R :=
  .tryCatch C (fun _ => (Confined.modify (.without (r := .vector v) own)).bind (fun _ _ => .throw))

theorem adopt_confined (own : S.refs (.context c)) (type : ElemType) {buffer : Option BufferId}
    (memory : ∀ b, buffer = some b → S.buffers b) (length : Nat) :
    Confined S (adopt c type buffer length) (fun v => S.refs (.vector v)) := by
  refine .guard (fun _ => ?_)
  cases hb : buffer with
  | none => exact .throw
  | some b =>
    refine .get_bind (fun h g M => by simp only [M.buffers.find (memory b hb)]) (fun h _ => ?_)
    refine (Confined.live _ (fun _ _ => trivial)).bind (fun foreign _ => ?_)
    refine .bind (modifyContext_confined own _ (fun _ => id)) (fun _ _ => ?_)
    refine .bind (addVector_confined (Region.all_vector_iff.mpr ⟨own, by simp, by simp⟩)) (fun v new => ?_)
    refine (orDiscard_confined new (ensureVectorPeer_confined new)).bind (fun p peer => ?_)
    refine (install_confined own peer (fun _ i same => ?_) length length (by simp)).bind
      (fun _ _ => .pure new)
    cases same
    exact memory b hb

/-! ### Reading -/

theorem checkType_confined (expected found : ElemType) :
    Confined S (checkType expected found) (fun _ => True) :=
  .ite (fun _ => .pure trivial) (fun _ => .throw)

theorem checkIndex_confined (cell : VectorCell) (i : Nat) :
    Confined S (checkIndex cell i) (fun _ => True) :=
  .ite (fun _ => .pure trivial) (fun _ => .throw)

section
variable {cell : VectorCell} (all : S.all cell.refs)
include all

theorem managed_confined :
    Confined S (managed? cell) (fun buffer => ∀ b, buffer = some b → S.all b.refs) := by
  obtain ⟨context, _, buffer⟩ := Region.all_vector_iff.mp all
  refine (context_confined context).bind (fun ctx _ => .ite (fun _ => .pure buffer) (fun _ => ?_))
  cases hb : cell.buffer with
  | some b => exact .pure (fun b' same => Option.some.inj same ▸ buffer b hb)
  | none => exact .throw

theorem nativePeer_confined : Confined S (nativePeer cell) (fun p => S.refs (.peer p)) := by
  obtain ⟨_, peer, _⟩ := Region.all_vector_iff.mp all
  unfold nativePeer
  cases hp : cell.peer with
  | some p => exact .pure (peer p hp)
  | none => exact .throw

theorem loadNative_confined (own : S.refs (.peer p)) (i : Nat) :
    Confined S (loadNative cell p i) (fun e => S.all e.refs) := by
  unfold loadNative
  split
  · rename_i t _
    refine Confined.bind (Q := fun _ => True) ?_ (fun x _ => .pure (Region.all_ofValue t x))
    exact (readSlot_confined own ..).bind (fun _ _ => .pure trivial)
  · refine (readHandle_confined own i).bind (fun k _ => ?_)
    refine (lookup_confined (Region.all_vector_iff.mp all).1 k).bind (fun o found => ?_)
    exact (checkType_confined ..).bind (fun _ _ => .pure (Region.all_toElem found))

theorem loadNatives_confined (own : S.refs (.peer p)) (i n : Nat) :
    Confined S (loadNatives cell p i n) (fun es => ∀ e ∈ es, S.all e.refs) := by
  induction n generalizing i with
  | zero => exact .pure nofun
  | succ n ih =>
    exact (loadNative_confined all own i).bind (fun e good => (ih (i + 1)).bind (fun es rest =>
      .pure (List.forall_mem_cons.mpr ⟨good, rest⟩)))

theorem usedBuffer_confined : Confined S (usedBuffer cell) (fun b => S.all b.refs) := by
  refine (managed_confined all).bind (fun buffer good => ?_)
  cases buffer with
  | some b =>
    refine .ofPanic _ (fun b' taken => ?_)
    unfold Buffer.take? at taken
    split at taken
    · cases taken
      have slots := Region.all_buffer_iff.mp (good b rfl)
      exact Region.all_buffer_iff.mpr (fun e he => slots e (List.mem_of_mem_take he))
    · cases taken
  | none =>
    refine (nativePeer_confined all).bind (fun p peer => ?_)
    exact (loadNatives_confined all peer 0 cell.length).bind (fun es good => bufferOf_confined _ good)

end

theorem getElem_confined (own : S.refs (.vector v)) (i : Nat) :
    Confined S (getElem v i) (fun e => S.all e.refs) := by
  refine (vector_confined own).bind (fun cell all => (checkIndex_confined cell i).bind (fun _ _ =>
    (managed_confined all).bind (fun buffer good => ?_)))
  cases buffer with
  | some b =>
    dsimp only
    cases there : b.get? i with
    | some e => exact .pure (Region.all_buffer_iff.mp (good b rfl) e (List.mem_of_getElem? there))
    | none => exact .throw
  | none => exact (nativePeer_confined all).bind (fun p peer => loadNative_confined all peer i)

theorem getElems_confined (own : S.refs (.vector v)) (i n : Nat) :
    Confined S (getElems v i n) (fun es => ∀ e ∈ es, S.all e.refs) := by
  induction n generalizing i with
  | zero => exact .pure nofun
  | succ n ih =>
    exact (getElem_confined own i).bind (fun e good => (ih (i + 1)).bind (fun es rest =>
      .pure (List.forall_mem_cons.mpr ⟨good, rest⟩)))

theorem toList_confined (own : S.refs (.vector v)) :
    Confined S (toList v) (fun es => ∀ e ∈ es, S.all e.refs) :=
  (vector_confined own).bind (fun _ _ => getElems_confined own ..)

theorem bufferValues_confined (t : InlineType) (b : Buffer) :
    Confined S (bufferValues t b) (fun _ => True) :=
  .ite (fun _ => .pure trivial) (fun _ => .throw)

theorem getValue_confined (own : S.refs (.vector v)) (t : InlineType) (i : Nat) :
    Confined S (getValue v t i) (fun _ => True) := by
  refine (vector_confined own).bind (fun cell all => (checkType_confined ..).bind (fun _ _ =>
    (checkIndex_confined cell i).bind (fun _ _ => (managed_confined all).bind (fun buffer _ => ?_))))
  cases buffer with
  | some b =>
    refine (bufferValues_confined t b).bind (fun values _ => ?_)
    cases values[i]? with
    | some x => exact .pure trivial
    | none => exact .throw
  | none =>
    exact (nativePeer_confined all).bind (fun p peer =>
      (readSlot_confined peer ..).bind (fun _ _ => .pure trivial))

theorem toValues_confined (own : S.refs (.vector v)) (t : InlineType) :
    Confined S (toValues v t) (fun _ => True) := by
  refine (vector_confined own).bind (fun cell all => (checkType_confined ..).bind (fun _ _ =>
    (managed_confined all).bind (fun buffer _ => ?_)))
  cases buffer with
  | some b =>
    exact (bufferValues_confined t b).bind (fun values _ =>
      .ite (fun _ => .pure trivial) (fun _ => .throw))
  | none =>
    exact (nativePeer_confined all).bind (fun p peer => (peer_confined peer).bind (fun q good =>
      (contentsTo_confined good.backing _).bind (fun _ _ => .pure trivial)))

/-! ### Writing -/

theorem storeAt_confined {cell : VectorCell} (own : S.refs (.vector v)) (all : S.all cell.refs) (i : Nat)
    {e : Elem} (good : S.all e.refs) (assigned : Option Handle) :
    Confined S (storeAt v cell i e assigned) (fun _ => True) := by
  refine (managed_confined all).bind (fun buffer slots => ?_)
  cases buffer with
  | some b =>
    have stored : ∀ b', b.store? i e = .ok (some b') → S.all b'.refs := by
      intro b' store
      unfold Buffer.store? at store
      split at store
      · split at store
        · cases store
          refine Region.all_buffer_iff.mpr (fun x hx => ?_)
          rcases List.mem_or_eq_of_mem_set hx with old | rfl
          · exact Region.all_buffer_iff.mp (slots b rfl) x old
          · exact good
        · cases store
      · cases store
    refine (Confined.ofPanic (R := fun o => ∀ b', o = some b' → S.all b'.refs) _
      (fun o store b' same => stored b' (same ▸ store))).bind (fun o kept => ?_)
    cases o with
    | some b' =>
      refine (modifyVector_confined own _ (fun cell all => ?_)).bind (fun _ _ => .pure trivial)
      obtain ⟨context, peer, _⟩ := Region.all_vector_iff.mp all
      exact Region.all_vector_iff.mpr ⟨context, peer, fun b same => Option.some.inj same ▸ kept b' rfl⟩
    | none => exact .throw
  | none =>
    refine (nativePeer_confined all).bind (fun p peer => ?_)
    cases object : e.object? with
    | none => exact (writeSlots_confined peer ..).bind (fun _ _ => .pure trivial)
    | some o =>
      have named : S.refs (.ofObject o) := Region.all_elem_iff.mp good o object
      cases assigned with
      | some handle =>
        exact (writeHandles_confined peer i (List.forall_mem_singleton.mpr named)).bind
          (fun _ _ => .pure trivial)
      | none => exact (ensureHandle_confined named).bind (fun _ _ => .pure trivial)

theorem noteMissing_confined (own : S.refs (.vector v)) {e : Elem} (good : S.all e.refs) :
    Confined S (noteMissing v e) (fun _ => True) := by
  refine Confined.bind (Q := fun _ => True) ?_ (fun missing _ =>
    .ite (fun _ => modifyVector_confined own _ (fun _ => id)) (fun _ => .pure trivial))
  exact .get_bind (fun h g M => by simp only [isNA_matches M good]) (fun _ _ => .pure trivial)

theorem setElem_confined (own : S.refs (.vector v)) (i : Nat) {e : Elem} (good : S.all e.refs) :
    Confined S (setElem v i e) (fun _ => True) := by
  refine (vector_confined own).bind (fun cell _ => (checkType_confined ..).bind (fun _ _ =>
    .guard (fun _ => .retry (T := fun _ => True) (fun assigned _ => ?_) _ trivial)))
  refine (vector_confined own).bind (fun cell all => (checkIndex_confined cell i).bind (fun _ _ =>
    (noteMissing_confined own good).bind (fun _ _ => ?_)))
  refine (storeAt_confined own all i good assigned).mono (fun r _ => ?_)
  cases r <;> exact trivial

/-! ### Length and capacity -/

theorem setLength_confined (own : S.refs (.vector v)) (n : Nat) :
    Confined S (setLength v n) (fun _ => True) := by
  refine (vector_confined own).bind (fun cell all => .guard (fun _ => ?_))
  refine .bind (modifyVector_confined own _ (fun _ => id)) (fun _ _ => ?_)
  cases hp : cell.peer with
  | none => exact .pure trivial
  | some p =>
    have peer := (Region.all_vector_iff.mp all).2.1 p hp
    refine (peer_confined peer).bind (fun q _ => .ite (fun _ => ?_) (fun _ => .pure trivial))
    exact modifyPeer_confined peer _ (fun q good => ⟨good.owner, good.pins, good.backing⟩)

theorem indirectFiller_confined (own : S.refs (.context c)) (type : ElemType) :
    Confined S (indirectFiller c type) (fun o => S.refs (.ofObject o)) :=
  .ite (fun _ => (naString_confined own).map (fun _ => id))
    (fun _ => (emptyList_confined own).map (fun _ => id))

theorem nativeFillers_confined (own : S.refs (.context c)) (type : ElemType) (n : Nat) :
    Confined S (nativeFillers c type n) (Held S) := by
  induction n with
  | zero => exact .pure nofun
  | succ n ih =>
    exact (indirectFiller_confined own type).bind (fun o new => (ensureHandle_confined new).bind
      (fun _ _ => ih.bind (fun rest held => .pure (List.forall_mem_cons.mpr ⟨new, held⟩))))

theorem resizeNative_confined {cell : VectorCell} (own : S.refs (.vector v)) (all : S.all cell.refs)
    (peer : S.refs (.peer p)) (n : Nat) {made : List (Object × Handle)} (held : Held S made) :
    Confined S (resizeNative v cell p n made) (fun _ => True) := by
  have context := (Region.all_vector_iff.mp all).1
  have resized : Confined S (modify (·.modifyVector v (fun cell => { cell with capacity := n })))
      (fun _ => True) := modifyVector_confined own _ (fun _ => id)
  refine (emptyAddress_confined context n).bind (fun empty _ => ?_)
  refine (reallocate_confined context peer _ n empty).bind (fun _ _ => .ite (fun _ => ?_) (fun _ => ?_))
  · refine (writeHandles_confined peer cell.capacity held).bind (fun _ _ => ?_)
    refine .bind (modifyPeer_confined peer _ (fun q good => ⟨good.owner, fun o pin => ?_, good.backing⟩))
      (fun _ _ => resized)
    exact good.pins o (List.mem_of_mem_take pin)
  · exact (fillMissing_confined peer ..).bind (fun _ _ => resized)

theorem setCapacity_confined (own : S.refs (.vector v)) (n : Nat) :
    Confined S (setCapacity v n) (fun _ => True) := by
  refine .retry (T := Held S) (fun made held => ?_) _ nofun
  refine (vector_confined own).bind (fun cell all => .guard (fun _ => ?_))
  obtain ⟨context, _, buffer⟩ := Region.all_vector_iff.mp all
  cases hb : cell.buffer with
  | some b =>
    refine (resizeBuffer_confined context (buffer b hb) n).bind (fun b' good => ?_)
    refine (modifyVector_confined own _ (fun cell all => ?_)).bind (fun _ _ => .pure trivial)
    obtain ⟨context, peer, _⟩ := Region.all_vector_iff.mp all
    exact Region.all_vector_iff.mpr ⟨context, peer, fun b same => Option.some.inj same ▸ good⟩
  | none =>
    refine (nativePeer_confined all).bind (fun p peer => .ite (fun _ => ?_) (fun _ => ?_))
    · exact (nativeFillers_confined context ..).bind (fun made held => .pure held)
    · exact (resizeNative_confined own all peer n held).bind (fun _ _ => .pure trivial)

/-! ### Promotion and copies -/

theorem moveOut_confined {cell : VectorCell} (own : S.refs (.vector v)) (all : S.all cell.refs)
    (peer : S.refs (.peer p)) (b : Buffer) {handles : List (Object × Handle)} (held : Held S handles) :
    Confined S (moveOut v cell p b handles) (fun _ => True) := by
  have context := (Region.all_vector_iff.mp all).1
  have backing : Confined S (nativeBacking cell b handles) S.Backs := by
    refine (byteSize_confined ..).bind (fun size _ => .ite (fun _ => ?_) (fun _ => ownBlock_confined ..))
    exact (sentinel_confined context).map (fun _ _ => nofun)
  refine backing.bind (fun backing good => ?_)
  refine (install_confined context peer good _ _ (fun o pin => ?_)).bind (fun _ _ => ?_)
  · obtain ⟨e, he, rfl⟩ := List.mem_map.mp pin
    exact held e he
  · refine .bind (modifyContext_confined context _ (fun _ => id)) (fun _ _ => ?_)
    refine modifyVector_confined own _ (fun cell all => ?_)
    obtain ⟨context, peer, _⟩ := Region.all_vector_iff.mp all
    exact Region.all_vector_iff.mpr ⟨context, peer, nofun⟩

theorem promote_confined (own : S.refs (.vector v)) : Confined S (promote v) (fun _ => True) := by
  refine (elementHandles_confined own).bind (fun handles held =>
    .retry (T := Held S) (fun handles held => ?_) _ held)
  refine (ensureVectorPeer_confined own).bind (fun p peer => (peer_confined peer).bind (fun q _ =>
    (vector_confined own).bind (fun cell all => ?_)))
  cases cell.buffer with
  | none => exact .pure trivial
  | some b =>
    refine .ite (fun _ => ?_) (fun _ => ?_)
    · exact (elementHandles_confined own).bind (fun handles held => .pure held)
    · exact (moveOut_confined own all peer b held).bind (fun _ _ => .pure trivial)

theorem setSharing_confined (own : S.refs (.vector v)) (k : SharingState → SharingState) :
    Confined S (setSharing v k) (fun _ => True) :=
  (vector_confined own).bind (fun _ _ =>
    .bind (modifyVector_confined own _ (fun _ => id)) (fun _ _ => .pure trivial))

theorem markAllShared_confined {es : List Elem} (own : ∀ e ∈ es, S.all e.refs) :
    Confined S (markAllShared es) (fun _ => True) := by
  induction es with
  | nil => exact .pure trivial
  | cons e es ih =>
    obtain ⟨first, later⟩ := List.forall_mem_cons.mp own
    cases e with
    | list v =>
      have named : S.refs (.vector v) := Region.all_elem_iff.mp first _ rfl
      exact (setSharing_confined named _).discard.bind (fun _ _ => ih later)
    | _ => exact ih later

theorem copy_confined (own : S.refs (.vector v)) :
    Confined S (copy v) (fun w => S.refs (.vector w)) := by
  refine (vector_confined own).bind (fun cell all => (usedBuffer_confined all).bind (fun b good => ?_))
  exact (markAllShared_confined (Region.all_buffer_iff.mp good)).bind (fun _ _ =>
    newVector_confined (Region.all_vector_iff.mp all).1 good)

theorem writable_confined (own : S.refs (.vector v)) :
    Confined S (writable v) (fun w => S.refs (.vector w)) :=
  (vector_confined own).bind (fun _ _ => .ite (fun _ => copy_confined own) (fun _ => .pure own))

/-! ### Frames -/

theorem binding_confined (own : S.refs (.frame f)) (name : String) :
    Confined S (binding? f name) (fun _ => True) :=
  (frame_confined own).bind (fun _ _ => .pure trivial)

theorem insertBinding_confined (own : S.refs (.frame f)) (name : String) {value : Value}
    (good : S.all value.refs) : Confined S (insertBinding f name value) (fun _ => True) := by
  refine (binding_confined own name).bind (fun previous _ => ?_)
  refine (modifyFrame_confined own _ (fun b old i value' found => ?_)).bind (fun _ _ => .pure trivial)
  rw [Table.find_insert] at found
  split at found
  · exact Option.some.inj found ▸ good
  · exact old i value' found

theorem removeBinding_confined (own : S.refs (.frame f)) (name : String) :
    Confined S (removeBinding f name) (fun _ => True) := by
  refine (binding_confined own name).bind (fun previous _ => ?_)
  refine (modifyFrame_confined own _ (fun b old i value found => ?_)).bind (fun _ _ => .pure trivial)
  rw [Table.find_erase] at found
  split at found
  · cases found
  · exact old i value found

theorem assign_confined (own : S.refs (.frame f)) (name : String) {value : Value}
    (good : S.all value.refs) : Confined S (assign f name value) (fun _ => True) := by
  refine (binding_confined own name).bind (fun previous _ => ?_)
  have inserted := insertBinding_confined own name good
  cases value with
  | vector v =>
    have named : S.refs (.vector v) := good _ (List.mem_singleton_self _)
    exact .ite (fun _ => inserted) (fun _ => (setSharing_confined named _).discard.bind (fun _ _ => inserted))
  | _ => exact inserted

theorem passArguments_confined {as : List Argument} (own : ∀ a ∈ as, S.all a.value.refs) :
    Confined S (passArguments as) (fun _ => True) := by
  induction as with
  | nil => exact .pure trivial
  | cons a as ih =>
    obtain ⟨first, later⟩ := List.forall_mem_cons.mp own
    have passed : Confined S (passArgument a) (fun _ => True) := by
      refine .ite (fun _ => .pure trivial) (fun _ => ?_)
      cases target : a.value.sharingTarget? with
      | none => exact .pure trivial
      | some v =>
        have named : S.refs (.vector v) := first _ (by
          cases hv : a.value <;> simp_all [Value.sharingTarget?, Value.refs])
        exact (setSharing_confined named _).bind (fun _ _ => .pure trivial)
    exact passed.discard.bind (fun _ _ => ih later)

theorem newBuffer_confined (bytes : Bytes) : Confined S (newBuffer bytes) S.buffers :=
  (Confined.place _ none).bind (fun _ _ => addBuffer_confined _)

end Op

/-! ### Calls -/

namespace Call

def Answer : Call → Type
  | newContext _ => ContextId
  | newBuffer _ => BufferId
  | newString .. | naString _ => StringId
  | newVector .. | withCapacity .. | adopt .. | copy _ | writable _ => VectorId
  | newFrame | cloneFrame _ => FrameId
  | get .. => Elem
  | getValue _ t _ => t.Value
  | toList _ => List Elem
  | toValues _ t => List t.Value
  | ensureHandle _ | promote _ => Handle
  | materialize _ => Address
  | applyTrigger .. => SharingState
  | lookup .. => Object
  | insertBinding .. | assign .. | removeBinding .. => Option Value
  | set .. | setLength .. | setCapacity .. | markBound _ | markShared _ | flip .. | passArguments _ => Unit

def ask : (call : Call) → Op call.Answer
  | newContext config => Op.addContext (.ofConfig config)
  | newBuffer bytes => Op.newBuffer bytes
  | newString c text => Op.newString c text
  | naString c => Op.naString c
  | newVector c type es => Op.bufferOf type es >>= Op.newVector c
  | withCapacity c type length capacity => Op.withCapacity c type length capacity
  | adopt c type buffer length => Op.adopt c type buffer length
  | get v i => Op.getElem v i
  | getValue v t i => Op.getValue v t i
  | toList v => Op.toList v
  | toValues v t => Op.toValues v t
  | set v i e => Op.setElem v i e
  | setLength v n => Op.setLength v n
  | setCapacity v n => Op.setCapacity v n
  | ensureHandle o => Op.ensureHandle o
  | promote v => Op.promote v
  | materialize s => Op.materialize s
  | copy v => Op.copy v
  | writable v => Op.writable v
  | applyTrigger v t => Op.applyTrigger v t
  | markBound v => Op.markBound v
  | markShared v => Op.markShared v
  | lookup c k => Op.lookup c k
  | flip c type =>
    modify (·.modifyContext c (fun ctx => { ctx with switches := ctx.switches.flip type }))
  | newFrame => Op.newFrame
  | cloneFrame f => Op.cloneFrame f
  | insertBinding f name value => Op.insertBinding f name value
  | assign f name value => Op.assign f name value
  | removeBinding f name => Op.removeBinding f name
  | passArguments as => Op.passArguments as

/-- An operation does the same with and without its answer. -/
theorem op_of_ask {call : Call} {h h' : Heap} {result : Except Fault call.Answer}
    (run : call.ask h = Op.ended result h') : call.op h = Op.ended (result.map (fun _ => ())) h' := by
  have plain : ∀ {op : Op Unit} {result : Except Fault Unit}, op h = Op.ended result h' →
      op h = Op.ended (result.map (fun _ => ())) h' :=
    fun {_ result} run => run.trans (by cases result <;> rfl)
  have discarded : ∀ {α : Type} {op : Op α} {result : Except Fault α}, op h = Op.ended result h' →
      discard op h = Op.ended (result.map (fun _ => ())) h' := fun {_ op result} run =>
    (Op.map_run _ op h).trans (by rw [run]; cases result <;> rfl)
  cases call with
  | set v i e => exact plain run
  | setLength v n => exact plain run
  | setCapacity v n => exact plain run
  | markBound v => exact plain run
  | markShared v => exact plain run
  | flip c type => exact plain run
  | passArguments as => exact plain run
  | _ => exact discarded run

/-- What a call names: what it refers to, and the context whose switch it flips. -/
def names : Call → List Ref
  | flip c _ => [.context c]
  | call => call.refs

theorem mem_names_of_mem_refs {call : Call} {r : Ref} (hr : r ∈ call.refs) : r ∈ call.names := by
  cases call with
  | flip c type => cases hr
  | _ => exact hr

def buffer? : Call → Option BufferId
  | adopt _ _ b _ => b
  | _ => none

open Op

/-- A call that names nothing outside of a region is confined to it. -/
theorem ask_confined {S : Region} (call : Call) (refs : ∀ r ∈ call.names, S.refs r)
    (buffers : ∀ b, call.buffer? = some b → S.buffers b) : Confined S call.ask (fun _ => True) := by
  have weaken : ∀ {α : Type} {R : α → Prop} {op : Op α}, Confined S op R → Confined S op (fun _ => True) :=
    fun C => C.mono (fun _ _ => trivial)
  have one : ∀ r, call.names = [r] → S.refs r := fun r e => refs r (e ▸ List.mem_singleton_self r)
  cases call with
  | newContext config =>
    exact weaken (addContext_confined (Region.all_context_iff.mpr
      ⟨nofun, fun k p entry => absurd entry
        (by simp [Context.ofConfig, Registry.ofConfig, Registry.peer?]), nofun⟩))
  | newBuffer bytes => exact weaken (newBuffer_confined bytes)
  | newString c text => exact weaken (newString_confined (one _ rfl) text)
  | naString c => exact weaken (naString_confined (one _ rfl))
  | newVector c type es =>
    obtain ⟨context, held⟩ := List.forall_mem_cons.mp refs
    exact weaken ((bufferOf_confined type (fun e he r hr => held r (List.mem_flatMap.mpr ⟨e, he, hr⟩))).bind
      (fun _ good => newVector_confined context good))
  | withCapacity c type length capacity =>
    exact weaken (withCapacity_confined (one _ rfl) type length capacity)
  | adopt c type buffer length => exact weaken (adopt_confined (one _ rfl) type buffers length)
  | get v i => exact weaken (getElem_confined (one _ rfl) i)
  | getValue v t i => exact getValue_confined (one _ rfl) t i
  | toList v => exact weaken (toList_confined (one _ rfl))
  | toValues v t => exact toValues_confined (one _ rfl) t
  | set v i e =>
    obtain ⟨own, held⟩ := List.forall_mem_cons.mp refs
    exact setElem_confined own i held
  | setLength v n => exact setLength_confined (one _ rfl) n
  | setCapacity v n => exact setCapacity_confined (one _ rfl) n
  | ensureHandle o => exact ensureHandle_confined (one _ rfl)
  | promote v => exact promote_confined (one _ rfl)
  | materialize s => exact materialize_confined (one _ rfl)
  | copy v => exact weaken (copy_confined (one _ rfl))
  | writable v => exact weaken (writable_confined (one _ rfl))
  | applyTrigger v t => exact setSharing_confined (one _ rfl) (·.after t)
  | markBound v => exact (setSharing_confined (one _ rfl) _).discard
  | markShared v => exact (setSharing_confined (one _ rfl) _).discard
  | lookup c k => exact weaken (lookup_confined (one _ rfl) k)
  | flip c type => exact modifyContext_confined (one _ rfl) _ (fun _ => id)
  | newFrame => exact weaken (addFrame_confined (fun _ _ bound => absurd bound (by simp)))
  | cloneFrame f => exact weaken ((frame_confined (one _ rfl)).bind (fun _ good => addFrame_confined good))
  | insertBinding f name value =>
    obtain ⟨frame, held⟩ := List.forall_mem_cons.mp refs
    exact insertBinding_confined frame name held
  | assign f name value =>
    obtain ⟨frame, held⟩ := List.forall_mem_cons.mp refs
    exact assign_confined frame name held
  | removeBinding f name => exact removeBinding_confined (one _ rfl) name
  | passArguments as =>
    exact passArguments_confined (fun a ha r hr => refs r (List.mem_flatMap.mpr ⟨a, ha, hr⟩))

end Call
end VectorHeap
