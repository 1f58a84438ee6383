import VectorHeap.Proofs.Adoption
import VectorHeap.Proofs.Capacity
import VectorHeap.Proofs.Frames
import VectorHeap.Proofs.Heap.Burial
import VectorHeap.Proofs.Promotion
import VectorHeap.Proofs.Strings
import VectorHeap.Proofs.Writing

/-! Runs: what users, burials and workers do to a heap, one step after the other. Users refer to what
is alive and adopt memory that is large enough; nothing else is asked of them. -/
namespace VectorHeap

inductive Call
  | newContext (config : Config)
  | newBuffer (bytes : Bytes)
  | newString (c : ContextId) (text : String)
  | naString (c : ContextId)
  | newVector (c : ContextId) (type : ElemType) (es : List Elem)
  | withCapacity (c : ContextId) (type : ElemType) (length capacity : Nat)
  | adopt (c : ContextId) (type : ElemType) (buffer : Option BufferId) (length : Nat)
  | get (v : VectorId) (i : Nat)
  | getValue (v : VectorId) (t : InlineType) (i : Nat)
  | toList (v : VectorId)
  | toValues (v : VectorId) (t : InlineType)
  | set (v : VectorId) (i : Nat) (e : Elem)
  | setLength (v : VectorId) (n : Nat)
  | setCapacity (v : VectorId) (n : Nat)
  | ensureHandle (o : Object)
  | promote (v : VectorId)
  | materialize (s : StringId)
  | copy (v : VectorId)
  | writable (v : VectorId)
  | applyTrigger (v : VectorId) (t : SharingTrigger)
  | markBound (v : VectorId)
  | markShared (v : VectorId)
  | lookup (c : ContextId) (k : Handle)
  | flip (c : ContextId) (type : ElemType)
  | newFrame
  | cloneFrame (f : FrameId)
  | insertBinding (f : FrameId) (name : String) (value : Value)
  | assign (f : FrameId) (name : String) (value : Value)
  | removeBinding (f : FrameId) (name : String)
  | passArguments (as : List Argument)

def Elem.refs (e : Elem) : List Ref := e.object?.toList.map .ofObject

namespace Call

def op : Call → Op Unit
  | newContext config => discard (Op.addContext (.ofConfig config))
  | newBuffer bytes => discard (Op.newBuffer bytes)
  | newString c text => discard (Op.newString c text)
  | naString c => discard (Op.naString c)
  | newVector c type es => discard (Op.bufferOf type es >>= Op.newVector c)
  | withCapacity c type length capacity => discard (Op.withCapacity c type length capacity)
  | adopt c type buffer length => discard (Op.adopt c type buffer length)
  | get v i => discard (Op.getElem v i)
  | getValue v t i => discard (Op.getValue v t i)
  | toList v => discard (Op.toList v)
  | toValues v t => discard (Op.toValues v t)
  | set v i e => Op.setElem v i e
  | setLength v n => Op.setLength v n
  | setCapacity v n => Op.setCapacity v n
  | ensureHandle o => discard (Op.ensureHandle o)
  | promote v => discard (Op.promote v)
  | materialize s => discard (Op.materialize s)
  | copy v => discard (Op.copy v)
  | writable v => discard (Op.writable v)
  | applyTrigger v t => discard (Op.applyTrigger v t)
  | markBound v => Op.markBound v
  | markShared v => Op.markShared v
  | lookup c k => discard (Op.lookup c k)
  | flip c type =>
    modify (·.modifyContext c (fun ctx => { ctx with switches := ctx.switches.flip type }))
  | newFrame => discard Op.newFrame
  | cloneFrame f => discard (Op.cloneFrame f)
  | insertBinding f name value => discard (Op.insertBinding f name value)
  | assign f name value => discard (Op.assign f name value)
  | removeBinding f name => discard (Op.removeBinding f name)
  | passArguments as => Op.passArguments as

def refs : Call → List Ref
  | newContext _ | newBuffer _ | newFrame | flip .. => []
  | newString c _ | naString c | withCapacity c .. | adopt c .. | lookup c _ => [.context c]
  | newVector c _ es => .context c :: es.flatMap Elem.refs
  | get v _ | getValue v .. | toList v | toValues v _ | setLength v _ | setCapacity v _ | promote v
  | copy v | writable v | applyTrigger v _ | markBound v | markShared v => [.vector v]
  | set v _ e => .vector v :: e.refs
  | ensureHandle o => [.ofObject o]
  | materialize s => [.string s]
  | cloneFrame f | removeBinding f _ => [.frame f]
  | insertBinding f _ value | assign f _ value => .frame f :: value.refs
  | passArguments as => as.flatMap (fun a => a.value.refs)

/-- Users refer to what is alive, and the memory that they let adopt is there. -/
structure Admissible (call : Call) (h : Heap) : Prop where
  alive : ∀ r ∈ call.refs, h.has r = true
  memory : ∀ c type b length, call = .adopt c type (some b) length →
    ∃ foreign, h.buffers.find? b = some foreign ∧ type.nativeWidth * length ≤ foreign.bytes.length

def touches (h : Heap) : Call → VectorId → Prop
  | adopt .., w => h.has (.vector w) = false
  | set v .., w | setLength v _, w | setCapacity v _, w | promote v, w | applyTrigger v _, w
  | markBound v, w | markShared v, w => w = v
  | copy v, w | writable v, w => Op.ReadLists h v w
  | assign _ _ value, w => value = .vector w
  | passArguments as, w => w ∈ Op.passedTargets as
  | _, _ => False

def writes (h : Heap) : Call → BufferId → Prop
  | set v .., b => h.Behind v b
  | _, _ => False

end Call

/-- An assertion about where contents are, or an access outside of them. -/
def Fault.isBreach : Fault → Bool
  | .panic .contentsNotAllocated | .panic .contentsAllocated | .panic .slotPastEnd
  | .panic .outsideContents | .panic (.indexPastEnd ..) | .panic (.rangePastEnd ..) => true
  | .dead | .unsettled => true
  | _ => false

/-- No breach, and no handle that is taken. -/
def Fault.isProper : Fault → Bool
  | .panic (.registeredTwice _) => false
  | f => !f.isBreach

theorem Fault.isBreach_of_isProper {f : Fault} (proper : f.isProper = true) : f.isBreach = false := by
  unfold isProper at proper
  split at proper
  · cases proper
  · simpa using proper

namespace Call

open Op

variable {h : Heap}

/-- A call is made of changes to what it may touch. No assertion about contents stops it, and a handle that
is taken does so only half way. -/
def Settles (call : Call) (h : Heap) : Prop :=
  Performs (call.touches h) (call.writes h) call.op h (fun _ _ => True)
    (fun f _ => f.isProper = true)

theorem settles_of_discard {α : Type} {op : Op α} {T T' : VectorId → Prop} {B B' : BufferId → Prop}
    {answers : α → Heap → Prop} {stops : Fault → Heap → Prop} (P : Performs T B op h answers stops)
    (proper : ∀ f h', stops f h' → f.isProper = true) (touched : ∀ v, T v → T' v)
    (written : ∀ b, B b → B' b) :
    Performs T' B' (discard op) h (fun _ _ => True) (fun f _ => f.isProper = true) :=
  ((P.mono (fun _ _ _ _ => trivial) (fun f h' _ => proper f h')).discard).widen touched written

theorem settles_of_reads {α : Type} {op : Op α} {T : VectorId → Prop} {B : BufferId → Prop}
    {answers : α → Prop} (R : Reads op h answers) :
    Performs T B (discard op) h (fun _ _ => True) (fun f _ => f.isProper = true) := by
  have P : Performs T B op h (fun _ _ => True) (fun f _ => f.isProper = true) := by
    refine Outcome.mono R ?_ ?_
    · rintro a h' ⟨rfl, _⟩
      exact ⟨.refl, trivial⟩
    · rintro f h' ⟨rfl, e, rfl⟩
      exact .inl ⟨.refl, rfl⟩
  exact P.discard

theorem isProper_of_error {f : Fault} (h : ∃ e, f = .error e) : f.isProper = true := by
  obtain ⟨e, rfl⟩ := h
  rfl

theorem settles_of_errors {α : Type} {op : Op α} {T T' : VectorId → Prop} {B B' : BufferId → Prop}
    (touched : ∀ v, T v → T' v) (written : ∀ b, B b → B' b)
    (P : Performs T B op h (fun _ _ => True) (fun f _ => ∃ e, f = .error e)) :
    Performs T' B' (discard op) h (fun _ _ => True) (fun f _ => f.isProper = true) :=
  settles_of_discard P (fun _ _ => isProper_of_error) touched written

theorem isProper_of_noRoom {type : ElemType} {n : Nat} {f : Fault} (noRoom : NoRoom h type n f) :
    f.isProper = true := by
  rcases noRoom with ⟨rfl, _⟩ | ⟨rfl, _⟩ <;> rfl

theorem isProper_of_exceeds {type : ElemType} {n : Nat} {f : Fault} (exceeds : Exceeds h type n f) :
    f.isProper = true := by
  rcases exceeds with noRoom | ⟨rfl, _⟩
  · exact isProper_of_noRoom noRoom
  · rfl

theorem isProper_of_set {s : Sequence} {i : Nat} {e : Elem} {missing : Bool} {f : Fault}
    (refused : s.set i e missing = .error f) : f.isProper = true := by
  unfold Sequence.set at refused
  split at refused
  · cases refused
    rfl
  · split at refused
    · cases refused
      rfl
    · split at refused
      · exact absurd refused (by simp)
      · cases refused
        rfl

theorem isProper_of_setLength {s : Sequence} {n : Nat} {f : Fault}
    (refused : s.setLength n = .error f) : f.isProper = true := by
  unfold Sequence.setLength at refused
  split at refused
  · cases refused
    rfl
  · exact absurd refused (by simp)

/-! ### Calls that make objects -/

theorem newContext_settles (config : Config) : (newContext config).Settles h :=
  .of_ok rfl (Heap.Change.growth (.context config)).moves trivial

theorem newBuffer_settles (bytes : Bytes) : (newBuffer bytes).Settles h :=
  .of_ok rfl (Heap.Change.growth (.buffer _ _ (Heap.placement_ne_zero h _ none) (Nat.le_succ _))).moves
    trivial

theorem newVector_settles {c : ContextId} {es : List Elem} (alive : h.has (.context c) = true)
    (held : ∀ e ∈ es, ∀ o, e.object? = some o → h.isAlive o = true) (type : ElemType) :
    (newVector c type es).Settles h := by
  refine settles_of_errors (T := Nowhere) (B := Nowhere) (fun _ => id) (fun _ => id) ?_
  by_cases typed : ∀ e ∈ es, e.type = type
  · exact .after .refl (bind_of_ok (bufferOf_run typed))
      ((newVector_performs alive (holds_of_alive (b := ⟨type, es, typed⟩) held)).mono
        (fun _ _ _ _ => trivial) (fun _ _ _ => id))
  · exact .of_error (bind_of_error (bufferOf_mistyped typed)) .refl ⟨_, rfl⟩

theorem withCapacity_settles (I : h.Intact) {c : ContextId} (alive : h.has (.context c) = true)
    (type : ElemType) (length capacity : Nat) :
    (withCapacity c type length capacity).Settles h := by
  refine settles_of_discard (withCapacity_performs I alive type length capacity) ?_ (fun _ => id)
    (fun _ => id)
  rintro f _ (⟨rfl, _⟩ | ⟨rfl, _⟩) <;> rfl

theorem adopt_settles (I : h.Intact) {c : ContextId} (alive : h.has (.context c) = true)
    (type : ElemType) (buffer : Option BufferId) (length : Nat)
    (memory : ∀ b, buffer = some b → ∃ foreign, h.buffers.find? b = some foreign ∧
      type.nativeWidth * length ≤ foreign.bytes.length) :
    (adopt c type buffer length).Settles h := by
  cases inline : InlineType.ofElemType? type with
  | none =>
    have indirect := Heap.ofElemType_eq_none.mp inline
    refine settles_of_errors (T := Nowhere) (B := Nowhere) (fun _ => False.elim) (fun _ => id) ?_
    exact .of_error (adopt_indirect indirect c buffer length) .refl ⟨_, rfl⟩
  | some t =>
    obtain ⟨rfl, plain⟩ := Heap.ofElemType_eq_some inline
    cases buffer with
    | none =>
      refine settles_of_errors (T := Nowhere) (B := Nowhere) (fun _ => False.elim) (fun _ => id) ?_
      refine .of_error (f := .error (.nullBuffer length)) ?_ .refl ⟨_, rfl⟩
      unfold Op.adopt
      rw [plain]
      rfl
    | some b =>
      obtain ⟨foreign, there, large⟩ := memory b rfl
      exact settles_of_errors (fun _ => id) (fun _ => id)
        ((adopt_performs I alive there large).mono (fun _ _ _ _ => trivial) (fun _ _ _ => id))

/-! ### Calls on one object -/

section
variable {v : VectorId} {cell : VectorCell}

theorem set_settles (I : h.Intact) (found : h.vectors.find? v = some cell) {e : Elem}
    (alive : ∀ o, e.object? = some o → h.isAlive o = true) (i : Nat) : (set v i e).Settles h := by
  refine (setElem_performs I found alive i).mono (fun _ _ _ _ => trivial) ?_
  rintro f h' _ (⟨_, refused⟩ | ⟨rfl, _⟩)
  · exact isProper_of_set refused
  · rfl

theorem setLength_settles (I : h.Intact) (found : h.vectors.find? v = some cell) (n : Nat) :
    (setLength v n).Settles h :=
  (setLength_performs I found n).mono (fun _ _ _ _ => trivial)
    (fun _ _ _ o => isProper_of_setLength o.2)

theorem setCapacity_settles (I : h.Intact) (found : h.vectors.find? v = some cell) (n : Nat) :
    (setCapacity v n).Settles h := by
  refine (setCapacity_performs I found n).mono (fun _ _ _ _ => trivial) ?_
  rintro f h' _ ⟨_, ⟨_, rfl⟩ | ⟨_, exceeds⟩⟩
  · rfl
  · exact isProper_of_exceeds exceeds

theorem promote_settles (I : h.Intact) (found : h.vectors.find? v = some cell) :
    (promote v).Settles h := by
  refine settles_of_discard (promote_performs I found) ?_ (fun _ => id) (fun _ => id)
  rintro f h' ⟨_, noRoom | ⟨rfl, _⟩⟩
  · exact isProper_of_noRoom noRoom
  · rfl

theorem materialize_settles (I : h.Intact) {s : StringId} {cell : StringCell}
    (found : h.strings.find? s = some cell) : (materialize s).Settles h := by
  refine settles_of_discard (materialize_performs I found) ?_ (fun _ => id) (fun _ => id)
  rintro f h' (⟨rfl, _⟩ | ⟨rfl, _⟩) <;> rfl

theorem ensureHandle_settles (I : h.Intact) {o : Object} (alive : h.isAlive o = true) :
    (ensureHandle o).Settles h := by
  refine settles_of_discard (ensureHandle_performs (T := Nowhere) (B := Nowhere) I alive) ?_
    (fun _ => id) (fun _ => id)
  rintro f h' ⟨rfl, _⟩
  rfl

theorem setSharing_settles (I : h.Intact) (found : h.vectors.find? v = some cell)
    {f : SharingState → SharingState} (forward : ∀ state, state ≤ f state) :
    Performs (Only v) Nowhere (discard (setSharing v f)) h (fun _ _ => True)
      (fun f _ => f.isProper = true) :=
  settles_of_errors (fun _ => id) (fun _ => id)
    ((setSharing_performs I found forward).mono (fun _ _ _ _ => trivial) (fun _ _ _ => id))

theorem copy_settles (I : h.Intact) (found : h.vectors.find? v = some cell) : (copy v).Settles h :=
  settles_of_errors (fun _ => id) (fun _ => id)
    ((copy_changes I found).mono (fun _ _ _ _ => trivial) (fun _ _ _ => And.right))

theorem writable_run (found : h.vectors.find? v = some cell) :
    Op.writable v h = if cell.sharing.isShared then Op.copy v h else .ok v h := by
  unfold Op.writable
  rw [vector_bind found]
  split <;> rfl

theorem writable_settles (I : h.Intact) (found : h.vectors.find? v = some cell) :
    (writable v).Settles h := by
  have run := writable_run found
  refine settles_of_errors (T := ReadLists h v) (B := Nowhere) (fun _ => id) (fun _ => id) ?_
  split at run
  · exact .after .refl run ((copy_changes I found).mono (fun _ _ _ _ => trivial) (fun _ _ _ => And.right))
  · exact .of_ok run .refl trivial

theorem flip_settles (c : ContextId) (type : ElemType) : (flip c type).Settles h := by
  have R : h.Revises none none
      (h.modifyContext c (fun ctx => { ctx with switches := ctx.switches.flip type })) := by
    refine (Heap.Revises.refl h none none).modifyContext c _ (fun _ => rfl) (fun _ _ => rfl)
      (fun _ _ _ => id) (fun _ _ => .inl) (fun ctx t flipped => ?_)
    rw [Switches.isPromoted_flip, flipped, Bool.or_true]
  exact .of_ok rfl (Heap.Change.environs R rfl).moves trivial

end

end Call

namespace Heap

variable {T : VectorId → Prop} {B : BufferId → Prop} {h h' : Heap}

def Advances (T : VectorId → Prop) (B : BufferId → Prop) (h h' : Heap) : Prop :=
  ∃ h₁, h.Moves T B h₁ ∧ (h' = h₁ ∨ h₁.Rebinds h')

theorem Moves.advances (M : h.Moves T B h') : h.Advances T B h' := ⟨h', M, .inl rfl⟩

theorem Rebinds.advances (R : h.Rebinds h') : h.Advances T B h' := ⟨h, .refl, .inr R⟩

theorem Advances.intact (I : h.Intact) (A : h.Advances T B h') : h'.Intact := by
  obtain ⟨h₁, M, rfl | R⟩ := A
  · exact M.intact I
  · exact R.intact (M.intact I)

theorem Advances.has (I : h.Intact) (A : h.Advances T B h') {r : Ref} (alive : h.has r = true) :
    h'.has r = true := by
  obtain ⟨h₁, M, rfl | R⟩ := A
  · exact M.has I alive
  · exact R.has (M.has I alive)

end Heap

namespace Call

open Op

variable {h h' : Heap} {f : Fault}

/-- What becomes of a call: it advances the heap, or a handle that is taken stops it half way. -/
def Ends (call : Call) (h : Heap) : Prop :=
  Outcome call.op h (fun _ h' => h.Advances (call.touches h) (call.writes h) h')
    (fun f h' => (f.isProper = true ∧ h.Advances (call.touches h) (call.writes h) h') ∨
      (∃ k, f = .panic (.registeredTwice k)) ∧
        ∃ h₁, h.Moves (call.touches h) (call.writes h) h₁ ∧ h₁.Refusal f h')

theorem Settles.ends {call : Call} (S : call.Settles h) : call.Ends h := by
  refine Outcome.mono S (fun _ _ o => o.1.advances) ?_
  rintro f h' (⟨M, proper⟩ | twice)
  · exact .inl ⟨proper, M.advances⟩
  · exact .inr twice

theorem ends_of_run {α : Type} {call : Call} {op : Op α} {a : α} (same : call.op = discard op)
    (run : op h = .ok a h') (R : h.Rebinds h') : call.Ends h := by
  have run' : call.op h = .ok () h' := by
    rw [same]
    exact (map_run _ op h).trans (by rw [run])
  exact .of_ok run' R.advances

theorem insertBinding_ends (I : h.Intact) {f : FrameId} {name : String} {value : Value}
    (alive : ∀ r ∈ (insertBinding f name value).refs, h.has r = true) :
    (insertBinding f name value).Ends h := by
  obtain ⟨frame, held⟩ := List.forall_mem_cons.mp alive
  obtain ⟨b, found⟩ := Heap.has_frame_iff.mp frame
  exact ends_of_run rfl (insertBinding_run found name value) (insert_rebinds I f name held)

theorem removeBinding_ends (I : h.Intact) {f : FrameId} (alive : h.has (.frame f) = true)
    (name : String) : (removeBinding f name).Ends h := by
  obtain ⟨b, found⟩ := Heap.has_frame_iff.mp alive
  exact ends_of_run rfl (removeBinding_run found name) (erase_rebinds I f name)

theorem cloneFrame_ends (I : h.Intact) {f : FrameId} (alive : h.has (.frame f) = true) :
    (cloneFrame f).Ends h := by
  obtain ⟨b, found⟩ := Heap.has_frame_iff.mp alive
  refine ends_of_run rfl (cloneFrame_run found) (I.rebinds_add (fun name value bound => ?_))
  exact I.frames f b name value found bound

theorem newFrame_ends (I : h.Intact) : newFrame.Ends h :=
  ends_of_run rfl
    (show Op.newFrame h = .ok h.frames.fresh { h with frames := h.frames.add .empty } from rfl)
    (I.rebinds_add (fun _ _ bound => absurd bound (by simp)))

theorem assign_ends (I : h.Intact) {f : FrameId} {name : String} {value : Value}
    (alive : ∀ r ∈ (assign f name value).refs, h.has r = true) : (assign f name value).Ends h := by
  obtain ⟨frame, held⟩ := List.forall_mem_cons.mp alive
  obtain ⟨b, found⟩ := Heap.has_frame_iff.mp frame
  have P : Performs _ _ (bindingStep (b.find? name) value) h _ (fun _ _ => False) :=
    bindingStep_performs I (b.find? name) held
  have run := assign_run found name value
  cases step : bindingStep (b.find? name) value h with
  | error g h₁ =>
    rw [bind_of_error step] at run
    have run' : (assign f name value).op h = .error g h₁ := (map_run _ _ h).trans (by rw [run])
    refine .of_error run' ?_
    rcases P.error step with ⟨_, never⟩ | ⟨twice, h₂, M, R⟩
    · exact never.elim
    · exact .inr ⟨twice, h₂, M.mono (fun _ hw => hw.1) (fun _ => id), R⟩
  | ok u h₁ =>
    obtain ⟨M, _⟩ := P.ok step
    have found₁ : h₁.frames.find? f = some b := by rw [M.frames]; exact found
    have inserted := insertBinding_run found₁ name value
    have R := insert_rebinds (M.intact I) f name (fun r hr => M.has I (held r hr))
    have run' : (assign f name value).op h = .ok () (h₁.modifyFrame f (·.insert name value)) :=
      (map_run _ _ h).trans (by rw [run, bind_of_ok step, inserted])
    exact .of_ok run' ⟨h₁, M.mono (fun _ hw => hw.1) (fun _ => id), .inr R⟩

/-- Calls that make frames or bind names. -/
def binds : Call → Bool
  | newFrame | cloneFrame _ | insertBinding .. | assign .. | removeBinding .. => true
  | _ => false

theorem settles (I : h.Intact) {call : Call} (ok : call.Admissible h) (plain : call.binds = false) :
    call.Settles h := by
  have alive := ok.alive
  have one : ∀ r, call.refs = [r] → h.has r = true :=
    fun r e => alive r (e ▸ List.mem_singleton_self r)
  have stored : ∀ v, call.refs = [.vector v] → ∃ cell, h.vectors.find? v = some cell :=
    fun v e => Heap.has_vector_iff.mp (one _ e)
  cases call with
  | newFrame => cases plain
  | cloneFrame f => cases plain
  | insertBinding f name value => cases plain
  | assign f name value => cases plain
  | removeBinding f name => cases plain
  | newContext config => exact newContext_settles config
  | newBuffer bytes => exact newBuffer_settles bytes
  | flip c type => exact flip_settles c type
  | newString c text =>
    exact settles_of_errors (fun _ => id) (fun _ => id)
      ((newString_performs (one _ rfl) text).mono (fun _ _ _ _ => trivial) (fun _ _ _ => id))
  | naString c =>
    exact settles_of_errors (fun _ => id) (fun _ => id)
      ((naString_performs I (one _ rfl)).mono (fun _ _ _ _ => trivial) (fun _ _ _ => id))
  | newVector c type es =>
    obtain ⟨there, held⟩ := List.forall_mem_cons.mp alive
    refine newVector_settles there (fun e he o ho => ?_) type
    rw [← Heap.has_ofObject]
    exact held _ (List.mem_flatMap.mpr ⟨e, he, by simp [Elem.refs, ho]⟩)
  | withCapacity c type length capacity =>
    exact withCapacity_settles I (one _ rfl) type length capacity
  | adopt c type buffer length =>
    refine adopt_settles I (one _ rfl) type buffer length ?_
    rintro b rfl
    exact ok.memory c type b length rfl
  | lookup c k =>
    obtain ⟨ctx, found⟩ := Heap.has_context_iff.mp (one _ rfl)
    exact settles_of_reads (lookup_reads found k)
  | get v i =>
    obtain ⟨cell, found⟩ := stored _ rfl
    exact settles_of_reads (getElem_reads I found i)
  | getValue v t i =>
    obtain ⟨cell, found⟩ := stored _ rfl
    exact settles_of_reads (getValue_reads I found t i)
  | toList v =>
    obtain ⟨cell, found⟩ := stored _ rfl
    exact settles_of_reads (toList_reads I found)
  | toValues v t =>
    obtain ⟨cell, found⟩ := stored _ rfl
    exact settles_of_reads (toValues_reads I found t)
  | setLength v n =>
    obtain ⟨cell, found⟩ := stored _ rfl
    exact setLength_settles I found n
  | setCapacity v n =>
    obtain ⟨cell, found⟩ := stored _ rfl
    exact setCapacity_settles I found n
  | promote v =>
    obtain ⟨cell, found⟩ := stored _ rfl
    exact promote_settles I found
  | copy v =>
    obtain ⟨cell, found⟩ := stored _ rfl
    exact copy_settles I found
  | writable v =>
    obtain ⟨cell, found⟩ := stored _ rfl
    exact writable_settles I found
  | applyTrigger v t =>
    obtain ⟨cell, found⟩ := stored _ rfl
    exact setSharing_settles I found (·.le_after t)
  | markBound v =>
    obtain ⟨cell, found⟩ := stored _ rfl
    exact setSharing_settles I found SharingState.le_markBound
  | markShared v =>
    obtain ⟨cell, found⟩ := stored _ rfl
    exact setSharing_settles I found SharingState.le_shared
  | set v i e =>
    obtain ⟨there, held⟩ := List.forall_mem_cons.mp alive
    obtain ⟨cell, found⟩ := Heap.has_vector_iff.mp there
    refine set_settles I found (fun o ho => ?_) i
    rw [← Heap.has_ofObject]
    exact held _ (by simp [Elem.refs, ho])
  | ensureHandle o => exact ensureHandle_settles I ((Heap.has_ofObject o).symm.trans (one _ rfl))
  | materialize s =>
    obtain ⟨cell, found⟩ := Heap.has_string_iff.mp (one _ rfl)
    exact materialize_settles I found
  | passArguments as =>
    refine (passArguments_performs I as (fun a ha r hr => ?_)).mono (fun _ _ _ _ => trivial)
      (fun _ _ _ => id)
    exact alive r (List.mem_flatMap.mpr ⟨a, ha, hr⟩)

theorem ends (I : h.Intact) {call : Call} (ok : call.Admissible h) : call.Ends h := by
  cases call with
  | newFrame => exact newFrame_ends I
  | cloneFrame f => exact cloneFrame_ends I (ok.alive _ (List.mem_singleton_self _))
  | removeBinding f name => exact removeBinding_ends I (ok.alive _ (List.mem_singleton_self _)) name
  | insertBinding f name value => exact insertBinding_ends I ok.alive
  | assign f name value => exact assign_ends I ok.alive
  | _ => exact (settles I ok rfl).ends

end Call

/-! ### Steps and runs -/

/-- One step: a call of a user that answers or is stopped, a burial of what nothing refers to, a turn
of a worker, or a shutdown. What references users keep is up to them. -/
inductive Step (allowed : Fault → Prop) (h : Heap) : Heap → Prop
  | answer {h' : Heap} (call : Call) (ok : call.Admissible h) (run : call.op h = .ok () h') :
    Step allowed h h'
  | stop {h' : Heap} (call : Call) (f : Fault) (ok : call.Admissible h)
      (run : call.op h = .error f h') (expected : allowed f) : Step allowed h h'
  | bury (roots : List Ref) (r : Ref) (dead : r ∈ h.dead roots) : Step allowed h (h.bury r)
  | work (c : ContextId) : Step allowed h (h.work c)
  | shutdown (c : ContextId) : Step allowed h (h.shutdown c)

theorem Step.mono {allowed allowed' : Fault → Prop} {h h' : Heap} (s : Step allowed h h')
    (weaker : ∀ f, allowed f → allowed' f) : Step allowed' h h' := by
  cases s with
  | answer call ok run => exact .answer call ok run
  | stop call f ok run expected => exact .stop call f ok run (weaker f expected)
  | bury roots r dead => exact .bury roots r dead
  | work c => exact .work c
  | shutdown c => exact .shutdown c

/-- Steps from one heap to another, with the heaps that they went through, the last one first. -/
inductive Run (allowed : Fault → Prop) (h₀ : Heap) : List Heap → Heap → Prop
  | start : Run allowed h₀ [] h₀
  | step {past : List Heap} {h h' : Heap} (run : Run allowed h₀ past h) (last : Step allowed h h') :
    Run allowed h₀ (h :: past) h'

namespace Heap

variable {allowed : Fault → Prop} {h h' h₀ : Heap} {past : List Heap}

/-- What a step comes to: changes and new bindings, a growth that was refused, or what was shed. -/
theorem step_cases (I : h.Intact) (s : Step allowed h h') :
    (∃ T B, h.Advances T B h') ∨
      ((∃ k, allowed (.panic (.registeredTwice k))) ∧
        ∃ f T B h₁, h.Moves T B h₁ ∧ h₁.Refusal f h') ∨ h.Sheds h' := by
  cases s with
  | answer call ok run => exact .inl ⟨_, _, (call.ends I ok).ok run⟩
  | stop call f ok run expected =>
    rcases (call.ends I ok).error run with ⟨_, A⟩ | ⟨⟨k, rfl⟩, h₁, M, R⟩
    · exact .inl ⟨_, _, A⟩
    · exact .inr (.inl ⟨⟨k, expected⟩, _, _, _, h₁, M, R⟩)
  | bury roots r dead => exact .inr (.inr (bury_sheds I (mem_dead_iff.mp dead).2.2.1))
  | work c => exact .inr (.inr (work_sheds I c))
  | shutdown c => exact .inr (.inr (shutdown_sheds I c))

theorem step_intact (I : h.Intact) (s : Step allowed h h') : h'.Intact := by
  rcases step_cases I s with ⟨T, B, A⟩ | ⟨_, f, T, B, h₁, M, R⟩ | S
  · exact A.intact I
  · exact R.intact (M.intact I)
  · exact S.intact I

theorem run_intact (I : h₀.Intact) (run : Run allowed h₀ past h) : h.Intact := by
  induction run with
  | start => exact I
  | step _ last ih => exact step_intact ih last

theorem intact_of_supply (supply : Nat → Nat → Option Address) : Heap.Intact { supply } where
  vectors _ _ found := absurd found (by simp)
  strings _ _ found := absurd found (by simp)
  peers _ _ found := absurd found (by simp)
  contexts _ _ found := absurd found (by simp)
  frames _ _ _ _ found := absurd found (by simp)
  buffers _ _ found := absurd found (by simp)

end Heap
end VectorHeap
