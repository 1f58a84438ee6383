import VectorHeap.Proofs.DataAddress
import VectorHeap.Proofs.Isolation
import VectorHeap.Proofs.Statements

/-! Elements that are taken out of a list and bound to a name of their own. The slot of a list counts as
no binding. So a write through the new name is kept from the list only if something else had brought the
element on its way to being shared: another name, a call, or a copy of its list. -/
namespace VectorHeap

open Op

namespace Op

def readThrough (f : FrameId) (x : String) (path : List Nat) (i : Nat) : Op Elem := do
  readPath path (← boundVector f x) i

def Comes (op : Op Unit) (h h' : Heap) : Prop :=
  op h = .ok () h' ∨ ∃ fault, Heap.Distinct fault ∧ op h = .error fault h'

theorem Outcome.comes {op : Op Unit} {h h' : Heap} {fact : Heap → Prop}
    (o : Outcome op h (fun _ h' => fact h') (fun f h' => Heap.Distinct f → fact h'))
    (run : op.Comes h h') : fact h' := by
  rcases run with run | ⟨fault, distinct, run⟩
  · exact o.ok run
  · exact o.error run distinct

end Op

def Call.marks : Call → Bool
  | copy _ | writable _ | applyTrigger .. | markBound _ | markShared _ | assign .. | passArguments _ =>
    true
  | _ => false

namespace Heap

variable {h h' h'' : Heap} {c : ContextId} {f g : FrameId} {x y : String} {l u v w : VectorId}
  {cell : VectorCell} {value : Value} {call : Call}

/-! ### Marks -/

/-- Vectors show what they showed from where they showed it, though some may be shared more. -/
structure Marks (h h' : Heap) : Prop where
  shares : h.Shares h'
  resident : h.Resident h'

theorem Marks.refl (h : Heap) : h.Marks h := ⟨.refl h, fun _ => id⟩

theorem Marks.rebinds (K : h.Marks h') (R : h'.Rebinds h'') : h.Marks h'' := by
  rw [R.rest]
  exact ⟨K.shares, K.resident⟩

theorem setSharing_marks (I : h.Intact) (found : h.vectors.find? v = some cell)
    {step : SharingState → SharingState} (forward : ∀ state, state ≤ step state) :
    ∃ state h', Op.setSharing v step h = .ok state h' ∧ h.Marks h' := by
  have P : Performs _ _ (Op.setSharing v step) h _ (fun _ _ => False) :=
    setSharing_shares I found forward
  have run : Op.setSharing v step h = .ok (step cell.sharing) _ := vector_bind found _
  exact ⟨_, _, run, (P.ok run).2, resident_setSharing h v step⟩

theorem vector_refs (there : h.has (.vector v) = true) :
    ∀ r ∈ (Value.vector v).refs, h.has r = true :=
  List.forall_mem_singleton.mpr there

theorem bindingStep_marks (I : h.Intact) (previous : Option Value)
    (alive : ∀ r ∈ value.refs, h.has r = true) :
    ∃ h', bindingStep previous value h = .ok () h' ∧ h.Marks h' := by
  unfold bindingStep
  cases value with
  | vector v =>
    obtain ⟨cell, found⟩ := has_vector_iff.mp (alive _ (List.mem_singleton_self _))
    obtain ⟨state, h', run, K⟩ := setSharing_marks I found (·.le_after .assign)
    cases bound : previous.any (·.same (.vector v)) with
    | true => exact ⟨h, by simp only [Value.vector?]; rfl, .refl h⟩
    | false =>
      refine ⟨h', ?_, K⟩
      simp only [Value.vector?]
      exact (map_run _ _ h).trans (by rw [applyTrigger, run])
  | _ => exact ⟨h, rfl, .refl h⟩

theorem assign_marks (I : h.Intact) (there : h.has (.frame f) = true) (x : String)
    (alive : ∀ r ∈ value.refs, h.has r = true) :
    ∃ previous h', Op.assign f x value h = .ok previous h' ∧ h.Marks h' ∧
      h.Advances (fun v => value = .vector v) Nowhere h' ∧
      ∀ g y, h'.bound? g y = if g = f ∧ y = x then some value else h.bound? g y := by
  obtain ⟨b, found⟩ := has_frame_iff.mp there
  obtain ⟨h₁, step, K⟩ := bindingStep_marks I (b.find? x) alive
  have P : Performs _ _ (bindingStep (b.find? x) value) h _ (fun _ _ => False) :=
    bindingStep_performs I (b.find? x) alive
  have M := (P.ok step).1
  have found₁ : h₁.frames.find? f = some b := by rw [M.frames]; exact found
  have there₁ : h₁.has (.frame f) = true := has_frame_iff.mpr ⟨b, found₁⟩
  have R := insert_rebinds (M.intact I) f x (fun r hr => M.has I (alive r hr))
  refine ⟨b.find? x, h₁.modifyFrame f (·.insert x value), ?_, K.rebinds R,
    ⟨h₁, M.mono (fun _ => And.left) (fun _ => id), .inr R⟩, fun g y => ?_⟩
  · rw [assign_run found x value, bind_of_ok step, insertBinding_run found₁]
  · rw [bound_insert there₁, bound_congr M.frames]

theorem passArguments_marks (I : h.Intact) (as : List Argument)
    (alive : ∀ a ∈ as, ∀ r ∈ a.value.refs, h.has r = true) :
    ∃ h', Op.passArguments as h = .ok () h' ∧ h.Marks h' := by
  induction as generalizing h with
  | nil => exact ⟨h, rfl, .refl h⟩
  | cons a as ih =>
    obtain ⟨first, rest⟩ := List.forall_mem_cons.mp alive
    have passed : ∃ state h₁, Op.passArgument a h = .ok state h₁ ∧ h.Resident h₁ := by
      unfold passArgument
      by_cases constant : a.constant = true
      · exact ⟨none, h, by rw [if_pos constant]; rfl, fun _ => id⟩
      · rw [if_neg constant]
        cases target : a.value.sharingTarget? with
        | none => exact ⟨none, h, rfl, fun _ => id⟩
        | some v =>
          obtain ⟨cell, found⟩ := has_vector_iff.mp (first _ (target_mem_refs target))
          obtain ⟨state, h₁, run, K⟩ := setSharing_marks I found (·.le_after .pass)
          exact ⟨some state, h₁, bind_of_ok run, K.resident⟩
    obtain ⟨state, h₁, run, resident⟩ := passed
    have P : Performs _ _ (Op.passArgument a) h _ (fun _ _ => False) := passArgument_performs I first
    obtain ⟨M, shares⟩ := P.ok run
    obtain ⟨h', run', K⟩ := ih (M.intact I) (fun a ha r hr => M.has I (rest a ha r hr))
    exact ⟨h', (bind_of_ok (discard_run run)).trans run', shares.trans K.shares,
      fun v managed => K.resident v (resident v managed)⟩

end Heap

theorem Call.marks_run {h : Heap} (I : h.Intact) {call : Call} (ok : call.Admissible h)
    (marks : call.marks = true) :
    Outcome call.op h (fun _ h' => h.Marks h') (fun _ h' => h.Marks h') := by
  have one : ∀ {v}, call.refs = [.vector v] → ∃ cell, h.vectors.find? v = some cell := fun own =>
    Heap.has_vector_iff.mp (ok.alive _ (own ▸ List.mem_singleton_self _))
  have copied : ∀ {v cell}, h.vectors.find? v = some cell →
      Outcome (Op.copy v) h (fun _ h' => h.Marks h') (fun _ h' => h.Marks h') :=
    fun found => (Heap.copy_copied I found).mono (fun _ _ ⟨_, C⟩ => ⟨C.shares, C.resident⟩)
      (fun _ _ same => same ▸ .refl h)
  have shared : ∀ {v} {step : SharingState → SharingState}, call.refs = [.vector v] →
      (∀ state, state ≤ step state) →
      Outcome (Op.setSharing v step) h (fun _ h' => h.Marks h') (fun _ h' => h.Marks h') := by
    intro v step own forward
    obtain ⟨cell, found⟩ := one own
    obtain ⟨state, h', run, K⟩ := Heap.setSharing_marks I found forward
    exact .of_ok run K
  cases call with
  | copy v =>
    obtain ⟨cell, found⟩ := one rfl
    exact Outcome.map (copied found)
  | writable v =>
    obtain ⟨cell, found⟩ := one rfl
    have run := Call.writable_run found
    refine Outcome.map ?_
    split at run
    · have copied := copied found
      unfold Outcome at copied ⊢
      rw [run]
      exact copied
    · exact .of_ok run (.refl h)
  | applyTrigger v t => exact Outcome.map (shared rfl (·.le_after t))
  | markBound v => exact Outcome.map (shared rfl (·.le_markBound))
  | markShared v => exact Outcome.map (shared rfl SharingState.le_shared)
  | assign f x value =>
    obtain ⟨there, alive⟩ := List.forall_mem_cons.mp ok.alive
    obtain ⟨previous, h', run, K, _⟩ := Heap.assign_marks I there x alive
    exact Outcome.map (.of_ok run K)
  | passArguments as =>
    obtain ⟨h', run, K⟩ := Heap.passArguments_marks I as
      (fun a ha r hr => ok.alive r (List.mem_flatMap.mpr ⟨a, ha, hr⟩))
    exact .of_ok run K
  | _ => cases marks

namespace Heap

variable {h h' h'' : Heap} {c : ContextId} {f g : FrameId} {x y : String} {l u v w : VectorId}
  {call : Call} {T : VectorId → Prop} {B : BufferId → Prop}

/-! ### What a vector reaches -/

/-- A vector is reached from another one by way of elements. -/
abbrev Reaches (h : Heap) (l v : VectorId) : Prop := Relation.ReflTransGen h.Child l v

/-- All that a vector reaches is of a context, which names its objects. -/
structure Housed (h : Heap) (c : ContextId) (l : VectorId) : Prop where
  intact : h.Intact
  names : h.NamesIn c
  own : ∀ v, h.Reaches l v → h.Local c v

/-- It still is, and it shows what it showed. -/
structure Preserves (h : Heap) (c : ContextId) (l : VectorId) (h' : Heap) : Prop where
  housed : h'.Housed c l
  alike : ∀ v, h.Reaches l v → h.Alike v h'

theorem reaches_iff_of_alike (alike : ∀ v, h.Reaches l v → h.Alike v h') (v : VectorId) :
    h'.Reaches l v ↔ h.Reaches l v := by
  constructor
  · intro way
    induction way with
    | refl => exact .refl
    | tail _ child ih => exact ih.tail (((alike _ ih).child _).mp child)
  · intro way
    induction way with
    | refl => exact .refl
    | tail first child ih => exact ih.tail (((alike _ first).child _).mpr child)

theorem Preserves.reaches (S : h.Preserves c l h') (v : VectorId) : h'.Reaches l v ↔ h.Reaches l v :=
  reaches_iff_of_alike S.alike v

theorem Housed.refl (D : h.Housed c l) : h.Preserves c l h := by
  refine ⟨D, fun v way => ?_⟩
  obtain ⟨s, shows⟩ := (D.own v way).sequence
  exact alike_of_same shows shows

theorem Preserves.trans (first : h.Preserves c l h') (last : h'.Preserves c l h'') : h.Preserves c l h'' where
  housed := last.housed
  alike v way := (first.alike v way).trans (last.alike v ((first.reaches v).mpr way))

theorem Housed.preserves (D : h.Housed c l) (I' : h'.Intact) (N' : h'.NamesIn c)
    (alike : ∀ v, h.Reaches l v → h.Alike v h')
    (resident : ∀ v, h.Reaches l v → h.isManaged v = true → h'.isManaged v = true)
    (contexts : ∀ o, h.contextOf? o = some c → h'.isAlive o = true → h'.contextOf? o = some c) :
    h.Preserves c l h' where
  housed := ⟨I', N', fun v way =>
    have way := (reaches_iff_of_alike alike v).mp way
    (D.own v way).later (alike v way) (resident v way) contexts I'⟩
  alike := alike

/-- A vector is out of another one's reach, and over no foreign memory. -/
structure OutOfReach (h : Heap) (l u : VectorId) : Prop where
  unreached : ¬ h.Reaches l u
  domestic : h.foreign? u = none

theorem Preserves.outOfReach (S : h.Preserves c l h') (out : h.OutOfReach l u)
    (back : ∀ b, h'.foreign? u = some b → h.foreign? u = some b) : h'.OutOfReach l u where
  unreached way := out.unreached ((S.reaches u).mp way)
  domestic := Option.eq_none_iff_forall_not_mem.mpr
    (fun b behind => absurd (out.domestic.symm.trans (back b behind)) (by simp))

theorem Preserves.readPath (S : h.Preserves c l h') (D : h.Housed c l) (path : List Nat) (i : Nat) :
    (readPath path l i).result h' = (readPath path l i).result h :=
  readPath_alike D.intact D.names S.housed.intact S.housed.names
    (fun v way => ⟨D.own v way, S.housed.own v ((S.reaches v).mpr way), S.alike v way⟩)
    (fun _ _ way child => way.tail child) .refl path i

theorem Rebinds.isManaged (R : h.Rebinds h') (v : VectorId) : h'.isManaged v = h.isManaged v := by
  rw [R.rest]
  rfl

/-- What neither touches what a vector reaches nor writes the buffers behind it spares it. -/
theorem Advances.preserves (A : h.Advances T B h') (D : h.Housed c l)
    (apart : ∀ v, h.Reaches l v → ¬ T v ∧ ∀ b, h.foreign? v = some b → ¬ B b) :
    h.Preserves c l h' := by
  have contexts : ∀ o, h.contextOf? o = some c → h'.isAlive o = true → h'.contextOf? o = some c :=
    fun o mine _ => A.contextOf D.intact mine
  have I' := A.intact D.intact
  have N' := A.namesIn D.intact D.names
  obtain ⟨h₁, M, last⟩ := A
  have shows : ∀ v, h'.sequence? v = h₁.sequence? v ∧ h'.isManaged v = h₁.isManaged v := by
    intro v
    rcases last with rfl | R
    · exact ⟨rfl, rfl⟩
    · exact ⟨R.sequence v, R.isManaged v⟩
  refine D.preserves I' N' (fun v way => ?_) (fun v way managed => ?_) contexts
  · obtain ⟨s, before⟩ := (D.own v way).sequence
    obtain ⟨untouched, unwritten⟩ := apart v way
    exact alike_of_same before
      ((shows v).1.trans (M.untouched D.intact untouched unwritten before).1)
  · obtain ⟨cell, found, _⟩ := (D.own v way).found
    exact (shows v).2.trans
      (((M.keepsCell D.intact (apart v way).1 found).isManaged found).trans managed)

theorem Advances.preserves_of_marks (A : h.Advances T B h') (D : h.Housed c l) (K : h.Marks h') :
    h.Preserves c l h' := by
  refine D.preserves (A.intact D.intact) (A.namesIn D.intact D.names) (fun v way => ?_)
    (fun v _ => K.resident v) (fun o mine _ => A.contextOf D.intact mine)
  obtain ⟨s, before⟩ := (D.own v way).sequence
  exact K.shares.alike before

theorem Advances.isShared (A : h.Advances T B h') (I : h.Intact) (shared : h.IsShared v) :
    h'.IsShared v := by
  obtain ⟨s, shows, full⟩ := shared
  obtain ⟨cell, found, rfl⟩ := sequence_eq_some_iff.mp shows
  obtain ⟨h₁, M, last⟩ := A
  obtain ⟨cell₁, found₁, more⟩ := M.sharing I found
  rw [show cell.sharing = .shared from full] at more
  have shows₁ : h₁.sequence? v = some (h₁.sequence cell₁) :=
    sequence_eq_some_iff.mpr ⟨cell₁, found₁, rfl⟩
  rcases last with rfl | R
  · exact ⟨_, shows₁, SharingState.eq_shared more⟩
  · exact ⟨_, (R.sequence v).trans shows₁, SharingState.eq_shared more⟩

/-! ### Calls and housekeeping -/

/-- How calls come out, apart from those that a handle that is taken stops. -/
theorem comes_advances (I : h.Intact) (ok : call.Admissible h) (run : call.op.Comes h h') :
    h.Advances (call.touches h) (call.writes h) h' := by
  rcases run with run | ⟨fault, distinct, run⟩
  · exact (call.ends I ok).ok run
  · rcases (call.ends I ok).error run with ⟨_, A⟩ | ⟨⟨k, rfl⟩, _⟩
    · exact A
    · exact absurd rfl (distinct k)

theorem comes_frames (I : h.Intact) (ok : call.Admissible h) (plain : call.binds = false)
    (run : call.op.Comes h h') : h'.frames = h.frames := by
  have S := call.settles I ok plain
  rcases run with run | ⟨fault, distinct, run⟩
  · exact (S.ok run).1.frames
  · rcases S.error run with ⟨M, _⟩ | ⟨⟨k, rfl⟩, _⟩
    · exact M.frames
    · exact absurd rfl (distinct k)

theorem comes_ended (run : call.op.Comes h h') : ∃ answered, h.Ended call h' answered := by
  rcases run with run | ⟨fault, _, run⟩
  · exact ⟨true, .answer run⟩
  · exact ⟨false, .stop fault run⟩

/-- Calls that at most mark what a vector reaches. -/
def Marking (h : Heap) (l : VectorId) (call : Call) : Prop :=
  call.marks = true ∨
    ∀ v, h.Reaches l v → ¬ call.touches h v ∧ ∀ b, h.foreign? v = some b → ¬ call.writes h b

theorem Marking.preserves (m : h.Marking l call) (D : h.Housed c l) (ok : call.Admissible h)
    (run : call.op.Comes h h') : h.Preserves c l h' := by
  have A := comes_advances D.intact ok run
  rcases m with marks | apart
  · have K := call.marks_run D.intact ok marks
    rcases run with run | ⟨_, _, run⟩
    · exact A.preserves_of_marks D (K.ok run)
    · exact A.preserves_of_marks D (K.error run)
  · exact A.preserves D apart

theorem Marking.outOfReach (m : h.Marking l call) (D : h.Housed c l) (ok : call.Admissible h)
    (run : call.op.Comes h h') (there : h.has (.vector u) = true) (out : h.OutOfReach l u) :
    h'.OutOfReach l u := by
  obtain ⟨answered, E⟩ := comes_ended run
  exact (m.preserves D ok run).outOfReach out (fun b => E.foreign_back D.intact there)

theorem Tidies.namesIn (I : h.Intact) (t : h.Tidies h') (N : h.NamesIn c) : h'.NamesIn c := by
  cases t with
  | bury roots r dead =>
    exact (bury_sheds I (mem_dead_iff.mp dead).2.2.1).namesIn I (bury_unlists I r) N
  | work d => exact (work_sheds I d).namesIn I (work_unlists h d) N
  | shutdown d => exact (shutdown_sheds I d).namesIn I (shutdown_unlists h d) N
  | release d p ownerless =>
    exact (release_sheds I d ownerless).namesIn I (release_unlists _ d p) N
  | reclaim d p there ownerless =>
    have same : h.SameRegistries h := fun i ctx' there => ⟨ctx', there, rfl⟩
    exact (reclaim_sheds I d there ownerless).namesIn I same.reclaim N

theorem Tidies.preserves (t : h.Tidies h') (D : h.Housed c l) (there : h'.has (.vector l) = true) :
    h.Preserves c l h' := by
  have S := t.sheds D.intact
  have I' := S.intact D.intact
  have same : ∀ {v}, h'.has (.vector v) = true → h'.sequence? v = h.sequence? v := by
    intro v alive
    obtain ⟨cell, found'⟩ := has_vector_iff.mp alive
    exact S.sequence D.intact found'
  -- What is there holds what it held, so the next vector on the way is there too.
  have kept : ∀ v, h.Reaches l v → h'.has (.vector v) = true := by
    intro v way
    induction way with
    | refl => exact there
    | tail _ child ih =>
      obtain ⟨s, shows, mem⟩ := child
      obtain ⟨cell, found', rfl⟩ := sequence_eq_some_iff.mp ((same ih).trans shows)
      exact I'.alive_of_mem found' (List.mem_of_mem_take mem) (o := .vector _) rfl
  refine D.preserves I' (t.namesIn D.intact D.names) (fun v way => ?_) (fun v way managed => ?_)
    (fun o mine alive => (S.contextOf alive).trans mine)
  · obtain ⟨s, before⟩ := (D.own v way).sequence
    exact alike_of_same before ((same (kept v way)).trans before)
  · obtain ⟨cell, found'⟩ := has_vector_iff.mp (kept v way)
    rw [isManaged_of_found found', ← isManaged_of_found (S.vectors v cell found')]
    exact managed

/-! ### Two names -/

/-- A name is bound to a vector, and all that this reaches is of a context. What another name is bound to
will be copied before it is written, or it is out of reach. -/
structure Sheltered (h : Heap) (c : ContextId) (f : FrameId) (x : String) (g : FrameId) (y : String)
    (l : VectorId) : Prop extends h.Housed c l where
  bound : h.bound? f x = some (.vector l)
  writes : ∀ u, h.bound? g y = some (.vector u) → h.IsShared u ∨ h.OutOfReach l u

theorem Sheltered.there (Sh : h.Sheltered c f x g y l) (bound : h.bound? g y = some (.vector u)) :
    h.has (.vector u) = true :=
  Sh.intact.has_of_mem_refs (bound_held bound _ (List.mem_singleton_self _))

theorem Sheltered.aside (Sh : h.Sheltered c f x g y l) (m : h.Marking l call)
    (ok : call.Admissible h) (run : call.op.Comes h h') (source : h'.bound? f x = h.bound? f x)
    (target : h'.bound? g y = h.bound? g y) : h'.Sheltered c f x g y l ∧ h.Preserves c l h' := by
  have D := Sh.toHoused
  have S := m.preserves D ok run
  refine ⟨⟨S.housed, source.trans Sh.bound, fun u bound => ?_⟩, S⟩
  have bound := target.symm.trans bound
  rcases Sh.writes u bound with shared | out
  · exact .inl ((comes_advances D.intact ok run).isShared D.intact shared)
  · exact .inr (m.outOfReach D ok run (Sh.there bound) out)

theorem Sheltered.plain (Sh : h.Sheltered c f x g y l) (m : h.Marking l call)
    (ok : call.Admissible h) (binds : call.binds = false) (run : call.op.Comes h h') :
    h'.Sheltered c f x g y l ∧ h.Preserves c l h' :=
  have frames := comes_frames Sh.intact ok binds run
  Sh.aside m ok run (bound_congr frames f x) (bound_congr frames g y)

theorem Sheltered.tidy (Sh : h.Sheltered c f x g y l) (t : h.Tidies h')
    (bound : h'.bound? f x = some (.vector l)) : h'.Sheltered c f x g y l ∧ h.Preserves c l h' := by
  have sheds := t.sheds Sh.intact
  have I' := sheds.intact Sh.intact
  have held : ∀ {g y u}, h'.bound? g y = some (.vector u) → h'.has (.vector u) = true :=
    fun bound => I'.has_of_mem_refs (bound_held bound _ (List.mem_singleton_self _))
  have S := t.preserves Sh.toHoused (held bound)
  refine ⟨⟨S.housed, bound, fun u bound => ?_⟩, S⟩
  obtain ⟨cell, found'⟩ := has_vector_iff.mp (held bound)
  have before : h.bound? g y = some (.vector u) := by
    obtain ⟨b, found, named⟩ := Option.bind_eq_some_iff.mp bound
    exact Option.bind_eq_some_iff.mpr ⟨b, sheds.frames g b found, named⟩
  obtain ⟨_, foreign⟩ := (sheds.keepsCell Sh.intact found').sequence Sh.intact I'
    (sheds.vectors u cell found') (fun b _ => by rw [sheds.buffers])
  refine (Sh.writes u before).imp ?_ (fun out => S.outOfReach out (fun b => foreign.symm.trans))
  rintro ⟨s, shows, full⟩
  exact ⟨s, (sheds.sequence Sh.intact found').trans shows, full⟩

/-- What is written through the second name was copied by then, or it is out of reach. -/
theorem Sheltered.writable (Sh : h.Sheltered c f x g y l) (bound : h.bound? g y = some (.vector u)) :
    Outcome (Op.writable u) h
      (fun w h' => h'.has (.vector w) = true ∧ ¬ h.Reaches l w ∧ h'.foreign? w = none)
      (fun _ _ => True) := by
  obtain ⟨cell, found⟩ := has_vector_iff.mp (Sh.there bound)
  have run := Call.writable_run found
  split at run
  · have copied := copy_copied Sh.intact found
    unfold Outcome at copied ⊢
    rw [run]
    split at copied
    · obtain ⟨s, C⟩ := copied
      obtain ⟨complete, made⟩ := C.made
      obtain ⟨cell', found', _⟩ := sequence_eq_some_iff.mp made.sequence
      exact ⟨has_vector_iff.mpr ⟨cell', found'⟩,
        fun way => absurd ((Sh.own _ way).there.symm.trans made.new) (by decide), made.foreign⟩
    · trivial
  · rename_i unshared
    have out := (Sh.writes u bound).resolve_left (by
      rintro ⟨s, shows, full⟩
      obtain ⟨cell', found', rfl⟩ := sequence_eq_some_iff.mp shows
      cases found.symm.trans found'
      exact unshared (by rw [show cell.sharing = .shared from full]; rfl))
    exact .of_ok run ⟨Sh.there bound, out.unreached, out.domestic⟩

theorem Sheltered.assign (Sh : h.Sheltered c f x g y l) (other : ¬ (f = g ∧ x = y))
    (frame : h.has (.frame g) = true) (there : h.has (.vector w) = true) (out : h.OutOfReach l w) :
    Outcome (discard (Op.assign g y (.vector w))) h
      (fun _ h' => h'.Sheltered c f x g y l ∧ h.Preserves c l h') (fun _ _ => False) := by
  obtain ⟨previous, h', run, K, A, names⟩ := assign_marks Sh.intact frame y (vector_refs there)
  have S := A.preserves_of_marks Sh.toHoused K
  refine Outcome.map (.of_ok run ⟨⟨S.housed, ?_, fun u bound => .inr ?_⟩, S⟩)
  · rw [names, if_neg other]
    exact Sh.bound
  · rw [names, if_pos ⟨rfl, rfl⟩] at bound
    cases bound
    obtain ⟨cell, found⟩ := has_vector_iff.mp there
    obtain ⟨_, _, leaves⟩ := K.shares w _ (sequence_eq_some_iff.mpr ⟨cell, found, rfl⟩)
    exact S.outOfReach out leaves.2

/-- A write through the second name spares what the first one reaches, wherever it stops. -/
theorem Sheltered.modifyBound (Sh : h.Sheltered c f x g y l) (other : ¬ (f = g ∧ x = y))
    (bound : h.bound? g y = some (.vector u)) {e : Elem}
    (alive : ∀ o, e.object? = some o → h.isAlive o = true) (i : Nat) :
    Outcome (Op.modifyBound g y u i e) h
      (fun _ h' => h'.Sheltered c f x g y l ∧ h.Preserves c l h')
      (fun fault h' => Distinct fault → h'.Sheltered c f x g y l ∧ h.Preserves c l h') := by
  have ok : (Call.writable u).Admissible h :=
    ⟨List.forall_mem_singleton.mpr (Sh.there bound), fun _ _ _ _ own => by cases own⟩
  refine Outcome.bind_run (fun fault h₁ run distinct => ?_) (fun w h₁ run => ?_)
  · have run : (Call.writable u).op h = .error fault h₁ := (map_run _ _ h).trans (by rw [run])
    exact Sh.plain (.inl rfl) ok rfl (.inr ⟨fault, distinct, run⟩)
  obtain ⟨there, unreached, domestic⟩ := (Sh.writable bound).ok run
  have run : (Call.writable u).op h = .ok () h₁ := (map_run _ _ h).trans (by rw [run])
  have A₁ := comes_advances Sh.intact ok (.inl run)
  obtain ⟨Sh₁, S₁⟩ := Sh.plain (.inl rfl) ok rfl (.inl run)
  have out : h₁.OutOfReach l w := ⟨fun way => unreached ((S₁.reaches w).mp way), domestic⟩
  have spared : h₁.Marking l (.set w i e) := .inr (fun v way =>
    ⟨fun same => out.unreached (same ▸ way),
      fun b _ behind => absurd (domestic.symm.trans behind) (by simp)⟩)
  have ok₁ : (Call.set w i e).Admissible h₁ := by
    refine ⟨fun r hr => ?_, fun _ _ _ _ own => by cases own⟩
    rcases List.mem_cons.mp hr with rfl | held
    · exact there
    · obtain ⟨o, ho, rfl⟩ := List.mem_map.mp held
      exact A₁.has Sh.intact ((has_ofObject o).trans (alive o (Option.mem_toList.mp ho)))
  refine Outcome.bind_run (fun fault h₂ run distinct => ?_) (fun _ h₂ run => ?_)
  · obtain ⟨Sh₂, S₂⟩ := Sh₁.plain spared ok₁ rfl (.inr ⟨fault, distinct, run⟩)
    exact ⟨Sh₂, S₁.trans S₂⟩
  have A₂ := comes_advances Sh₁.intact ok₁ (.inl run)
  obtain ⟨Sh₂, S₂⟩ := Sh₁.plain spared ok₁ rfl (.inl run)
  have out₂ := spared.outOfReach Sh₁.toHoused ok₁ (.inl run) there out
  have frame := A₂.has Sh₁.intact (A₁.has Sh.intact (bound_frame bound))
  refine (Sh₂.assign other frame (A₂.has Sh₁.intact there) out₂).mono ?_ (fun _ _ => False.elim)
  rintro _ h₃ ⟨Sh₃, S₃⟩
  exact ⟨Sh₃, (S₁.trans S₂).trans S₃⟩

end Heap

/-- What may happen between reads through one name: writes through another one, calls that leave both
names alone and at most mark what the first one reaches, and housekeeping that leaves the first one
bound. -/
inductive Meanwhile (f : FrameId) (x : String) (g : FrameId) (y : String) (h : Heap) : Heap → Prop
  | write {h' : Heap} (u : VectorId) (i : Nat) (e : Elem) (bound : h.bound? g y = some (.vector u))
      (alive : ∀ o, e.object? = some o → h.isAlive o = true)
      (run : (Op.modifyBound g y u i e).Comes h h') : Meanwhile f x g y h h'
  | aside {h' : Heap} (call : Call) (ok : call.Admissible h) (run : call.op.Comes h h')
      (source : h'.bound? f x = h.bound? f x) (target : h'.bound? g y = h.bound? g y)
      (marking : ∀ l, h.bound? f x = some (.vector l) → h.Marking l call) : Meanwhile f x g y h h'
  | tidy {h' : Heap} (t : h.Tidies h') (kept : h'.bound? f x = h.bound? f x) : Meanwhile f x g y h h'

namespace Heap

variable {h h' h₁ h₂ : Heap} {c : ContextId} {f g : FrameId} {x y : String} {l u v w : VectorId}
  {s : Sequence} {e : Elem} {i j : Nat} {previous : Option Value}

theorem Sheltered.step (Sh : h.Sheltered c f x g y l) (other : ¬ (f = g ∧ x = y))
    (s : Meanwhile f x g y h h') : h'.Sheltered c f x g y l ∧ h.Preserves c l h' := by
  cases s with
  | write u i e bound alive run => exact (Sh.modifyBound other bound alive i).comes run
  | aside call ok run source target marking =>
    exact Sh.aside (marking l Sh.bound) ok run source target
  | tidy t kept => exact Sh.tidy t (kept.trans Sh.bound)

theorem Sheltered.run (Sh : h.Sheltered c f x g y l) (other : ¬ (f = g ∧ x = y))
    (run : Relation.ReflTransGen (Meanwhile f x g y) h h') :
    h'.Sheltered c f x g y l ∧ h.Preserves c l h' := by
  induction run with
  | refl => exact ⟨Sh, Sh.toHoused.refl⟩
  | tail _ last ih =>
    obtain ⟨Sh₁, S₁⟩ := ih
    obtain ⟨Sh₂, S₂⟩ := Sh₁.step other last
    exact ⟨Sh₂, S₁.trans S₂⟩

theorem readThrough_result (bound : h.bound? f x = some (.vector l)) (path : List Nat) (i : Nat) :
    (readThrough f x path i).result h = (readPath path l i).result h := by
  unfold result
  rw [show readThrough f x path i h = readPath path l i h from bind_of_ok (boundVector_run bound)]

/-! ### Extractions -/

/-- A binding moves the state of its vector, unless the name is bound to it already. -/
theorem assign_shows (I : h.Intact) (frame : h.has (.frame g) = true) (shows : h.sequence? w = some s)
    (run : Op.assign g y (.vector w) h = .ok previous h') :
    h'.sequence? w = some (shareAs s (fun state =>
      if h.bound? g y = some (.vector w) then state else state.after .assign)) := by
  obtain ⟨b, found⟩ := has_frame_iff.mp frame
  obtain ⟨cell, found_w, rfl⟩ := sequence_eq_some_iff.mp shows
  have held := vector_refs (has_vector_iff.mpr ⟨cell, found_w⟩)
  obtain ⟨h₁, step, _⟩ := bindingStep_marks I (b.find? y) held
  have P : Performs _ _ (bindingStep (b.find? y) (.vector w)) h _ (fun _ _ => False) :=
    bindingStep_performs I (b.find? y) held
  obtain ⟨M, leaves⟩ := P.ok step
  have found₁ : h₁.frames.find? g = some b := by rw [M.frames]; exact found
  rw [assign_run found, bind_of_ok step, insertBinding_run found₁] at run
  cases run
  have named : h.bound? g y = b.find? y := by rw [bound?, found, Option.bind_some]
  change h₁.sequence? w = _
  by_cases same : h.bound? g y = some (.vector w)
  · simp only [if_pos same]
    exact (M.untouched I (fun touched => touched.2 (named.symm.trans same)) (fun _ _ => id) shows).1
  · simp only [if_neg same]
    exact (leaves w cell rfl (named ▸ same) found_w).1

theorem isShared_after_assign (I : h.Intact) (frame : h.has (.frame g) = true)
    (shows : h.sequence? w = some s) (run : Op.assign g y (.vector w) h = .ok previous h') :
    h'.IsShared w ↔ s.sharing = .shared ∨ s.sharing = .owned ∧ h.bound? g y ≠ some (.vector w) := by
  have after := assign_shows I frame shows run
  have shared : h'.IsShared w ↔
      (if h.bound? g y = some (.vector w) then s.sharing else s.sharing.after .assign) = .shared := by
    constructor
    · rintro ⟨t, same, full⟩
      cases after.symm.trans same
      exact full
    · exact fun full => ⟨_, after, full⟩
  rw [shared]
  by_cases same : h.bound? g y = some (.vector w)
  · rw [if_pos same]
    exact ⟨.inl, fun either => either.resolve_right (fun owned => owned.2 same)⟩
  · rw [if_neg same]
    cases s.sharing <;> simp [SharingState.after, same]

theorem Local.holdsAt (L : h.Local c v) (I : h.Intact) (N : h.NamesIn c)
    (read : (Op.getElem v i).result h = .ok e) :
    h.HoldsAt v i e ∧ ∃ s, h.sequence? v = some s ∧ e ∈ s.elements := by
  obtain ⟨s, shows⟩ := L.sequence
  have run := L.getElem I N shows i
  cases slot : s.elements[i]? with
  | none =>
    rw [slot] at run
    simp [result, run] at read
  | some e' =>
    rw [slot] at run
    simp only [result, run, Except.ok.injEq] at read
    subst read
    have used := slot
    rw [Sequence.getElem?_elements] at used
    split at used
    · rename_i lt
      exact ⟨⟨s, shows, lt, used⟩, s, shows, List.mem_of_getElem? slot⟩
    · cases used

/-- What is written in place through a name shows through a name of a list that holds the vector. -/
theorem written_in_place (D : h.Housed c l) (bound : h.bound? f x = some (.vector l))
    (other : ¬ (f = g ∧ x = y)) (H : h.HoldsAt l i (.list w)) (child : h.Child l w)
    (unshared : ¬ h.IsShared w) (apart : w ≠ l) (frame : h.has (.frame g) = true)
    (mine : h.Own c [e]) (j : Nat) :
    Outcome (Op.modifyBound g y w j e) h
      (fun _ h' => (readThrough f x [j] i).result h' = .ok e) (fun _ _ => True) := by
  have I := D.intact
  have L := D.own l .refl
  have W := D.own w (.single child)
  obtain ⟨cell, found, _⟩ := W.found
  have sole : cell.sharing.isShared = false := Bool.eq_false_iff.mpr (fun full =>
    unshared ⟨_, sequence_eq_some_iff.mpr ⟨cell, found, rfl⟩, eq_of_beq full⟩)
  have alive : ∀ o, e.object? = some o → h.isAlive o = true := fun o ho =>
    isAlive_iff_contextOf.mpr ⟨c, mine e (List.mem_singleton_self e) o ho⟩
  have here : Op.writable w h = .ok w h := by
    rw [Call.writable_run found, if_neg (Bool.eq_false_iff.mp sole)]
  refine Outcome.bind_of_ok here (Outcome.bind_run (fun _ _ _ => trivial) (fun _ h₁ write => ?_))
  have M := ((setElem_performs I found alive j).ok write).1
  have I₁ := M.intact I
  have written := holdsAt_of_set I found alive write
  have held := H.advance I (H.foreign I (o := .vector w) rfl) M.advances (Ne.symm apart)
  obtain ⟨previous, h₂, run, K, A, names⟩ := assign_marks I₁ (M.has I frame) y
    (vector_refs (M.has I W.there))
  have contexts : ∀ {o}, h.contextOf? o = some c → h₂.contextOf? o = some c :=
    fun own => A.contextOf I₁ (M.contextOf I own)
  have I₂ := A.intact I₁
  have N₂ := A.namesIn I₁ (M.namesIn I D.names)
  have outer : Op.getElem l i h₂ = .ok (.list w) h₂ := by
    refine (held.shares K.shares).getElem_own I₂ N₂ (contexts L.context) (fun e he o ho => ?_)
    cases List.mem_singleton.mp he
    cases ho
    exact contexts W.context
  have inner : Op.getElem w j h₂ = .ok e h₂ :=
    (written.shares K.shares).getElem_own I₂ N₂ (contexts W.context)
      (fun e he o ho => contexts (mine e he o ho))
  have bound₂ : h₂.bound? f x = some (.vector l) := by
    rw [names, if_neg other, bound_congr M.frames]
    exact bound
  refine Outcome.map (.of_ok run ?_)
  rw [readThrough_result bound₂, result,
    show readPath [j] l i h₂ = .ok e h₂ from (bind_of_ok outer).trans inner]

/-- After any run in which a context registered no handle twice, take a vector out of a list that a name
is bound to, where all that the list reaches is of that context, and assign it to another name. It is
shared then if it was shared, or owned on account of something else than that name. If so, then whatever
is written through the other name from then on, nothing of what is read through the first name changes.
If not, the first write goes into the list. -/
theorem list_after_extraction {supply : Nat → Nat → Option Address} {past : List Heap}
    (run : RunIn c { supply } past h) (bound : h.bound? f x = some (.vector l))
    (own : ∀ v, h.Reaches l v → h.Local c v)
    (read : (readThrough f x [] i).result h = .ok (.list w)) (frame : h.has (.frame g) = true)
    (other : ¬ (f = g ∧ x = y)) :
    ∃ previous h₁ s, Op.assign g y (.vector w) h = .ok previous h₁ ∧ h.sequence? w = some s ∧
      (h₁.IsShared w ↔
        s.sharing = .shared ∨ s.sharing = .owned ∧ h.bound? g y ≠ some (.vector w)) ∧
      (h₁.IsShared w → ∀ h₂, Relation.ReflTransGen (Meanwhile f x g y) h₁ h₂ → ∀ path j,
        (readThrough f x path j).result h₂ = (readThrough f x path j).result h) ∧
      (¬ h₁.IsShared w → w ≠ l → ∀ j e h₂, h₁.Own c [e] →
        Op.modifyBound g y w j e h₁ = .ok () h₂ → (readThrough f x [j] i).result h₂ = .ok e) := by
  have I := run.intact (intact_of_supply supply)
  have N := run.namesIn (intact_of_supply supply) (namesIn_of_supply supply c)
  rw [readThrough_result bound] at read
  obtain ⟨H, t, outer, mem⟩ := (own l .refl).holdsAt I N read
  have child : h.Child l w := ⟨t, outer, mem⟩
  have W := own w (.single child)
  obtain ⟨s, shows⟩ := W.sequence
  obtain ⟨previous, h₁, assigned, K, A, names⟩ := assign_marks I frame y (vector_refs W.there)
  have D : h.Housed c l := ⟨I, N, own⟩
  have S := A.preserves_of_marks D K
  have bound₁ : h₁.bound? f x = some (.vector l) := by
    rw [names, if_neg other]
    exact bound
  refine ⟨previous, h₁, s, assigned, shows, isShared_after_assign I frame shows assigned,
    fun shared h₂ later path j => ?_, fun unshared apart j e h₂ mine write => ?_⟩
  · have Sh : h₁.Sheltered c f x g y l := by
      refine ⟨S.housed, bound₁, fun u named => .inl ?_⟩
      rw [names, if_pos ⟨rfl, rfl⟩] at named
      cases named
      exact shared
    obtain ⟨Sh₂, S₂⟩ := Sh.run other later
    rw [readThrough_result Sh₂.bound, readThrough_result bound]
    exact (S.trans S₂).readPath D path j
  · exact (written_in_place S.housed bound₁ other (H.shares K.shares)
      (((S.alike l .refl).child w).mpr child) unshared apart (A.has I frame) mine j).ok write

theorem local_of_single {leaf : Sequence} (inner : h.sequence? ⟨0⟩ = some leaf)
    (plain : leaf.elements = [.int 1])
    (outer : h.sequence? ⟨1⟩ = some ⟨.list, [.list ⟨0⟩], 1, true, .owned⟩)
    (mine : ∀ v, v = ⟨0⟩ ∨ v = ⟨1⟩ → h.contextOf? (.vector v) = some c) :
    ∀ v, h.Reaches ⟨1⟩ v → h.Local c v := by
  obtain ⟨_, reached⟩ := reach_of_older (h := h) (l := ⟨1⟩)
    (P := fun v => v = ⟨0⟩ ∨ v = ⟨1⟩) (by simp) (by
      rintro u v (rfl | rfl) child
      · exact absurd ((child_iff inner).mp child) (by simp [plain])
      · cases List.mem_singleton.mp ((child_iff outer).mp child)
        exact ⟨by simp, by decide⟩)
  refine fun v way => ⟨mine v (reached v way), fun _ s shows e held o object => ?_⟩
  rcases reached v way with rfl | rfl
  · cases inner.symm.trans shows
    rw [plain] at held
    cases List.mem_singleton.mp held
    cases object
  · cases outer.symm.trans shows
    cases List.mem_singleton.mp held
    cases object
    exact mine ⟨0⟩ (.inl rfl)

def boundList : Heap :=
  let h₁ : Heap := (Call.newContext .default).op.after {}
  let h₂ : Heap := (Call.newVector ⟨0⟩ .int [.int 1]).op.after h₁
  let h₃ : Heap := (Call.newVector ⟨0⟩ .list [.list ⟨0⟩]).op.after h₂
  (Call.assign ⟨0⟩ "x" (.vector ⟨1⟩)).op.after (Call.newFrame.op.after h₃)

theorem boundList_run : ∃ past, Run Distinct {} past boundList := by
  have run₁ : Run Distinct {} [{}] _ := Run.start.step
    (.answer (.newContext .default) ⟨by decide, by simp⟩ rfl)
  have run₂ := run₁.step (.answer (.newVector ⟨0⟩ .int [.int 1]) ⟨by decide +kernel, by simp⟩
    (Op.run_of_ok (by decide +kernel)))
  have run₃ := run₂.step (.answer (.newVector ⟨0⟩ .list [.list ⟨0⟩]) ⟨by decide +kernel, by simp⟩
    (Op.run_of_ok (by decide +kernel)))
  have run₄ := run₃.step (.answer .newFrame ⟨by decide +kernel, by simp⟩
    (Op.run_of_ok (by decide +kernel)))
  exact ⟨_, run₄.step (.answer (.assign ⟨0⟩ "x" (.vector ⟨1⟩)) ⟨by decide +kernel, by simp⟩
    (Op.run_of_ok (by decide +kernel)))⟩

/-- The element was bound to a third name before, so it is copied before it is written. -/
theorem list_after_extraction_of_bound :
    ∃ past h previous h₁ h₂, RunIn ⟨0⟩ {} past h ∧
      Op.assign ⟨0⟩ "y" (.vector ⟨0⟩) h = .ok previous h₁ ∧
      Op.modifyBound ⟨0⟩ "y" ⟨0⟩ 0 (.int 5) h₁ = .ok () h₂ ∧
      (readThrough ⟨0⟩ "y" [] 0).result h₂ = .ok (.int 5) ∧
      (readThrough ⟨0⟩ "x" [0] 0).result h₂ = .ok (.int 1) := by
  obtain ⟨past, first⟩ := boundList_run
  let h : Heap := (Call.assign ⟨0⟩ "z" (.vector ⟨0⟩)).op.after boundList
  let h₁ : Heap := (Op.assign ⟨0⟩ "y" (.vector ⟨0⟩)).after h
  let h₂ : Heap := (Op.modifyBound ⟨0⟩ "y" ⟨0⟩ 0 (.int 5)).after h₁
  have run : Run Distinct {} (boundList :: past) h := first.step
    (.answer (.assign ⟨0⟩ "z" (.vector ⟨0⟩)) ⟨by decide +kernel, by simp⟩
      (Op.run_of_ok (by decide +kernel)))
  have inner : h.sequence? ⟨0⟩ = some ⟨.int, [.int 1], 1, true, .owned⟩ := by decide +kernel
  have own := local_of_single (h := h) (c := ⟨0⟩) inner rfl (by decide +kernel)
    (by rintro v (rfl | rfl) <;> decide +kernel)
  obtain ⟨previous, g, s, assigned, shows, shared, spared, -⟩ :=
    list_after_extraction (RunIn.of_run (c := ⟨0⟩) run) (f := ⟨0⟩) (x := "x") (g := ⟨0⟩) (y := "y")
      (l := ⟨1⟩) (w := ⟨0⟩) (i := 0) (by decide +kernel) own (by decide +kernel) (by decide +kernel)
      (by decide)
  cases inner.symm.trans shows
  have made : Op.assign ⟨0⟩ "y" (.vector ⟨0⟩) h = .ok none h₁ := Op.run_of_ok (by decide +kernel)
  obtain ⟨rfl, rfl⟩ := EStateM.Result.ok.inj (assigned.symm.trans made)
  have write : Op.modifyBound ⟨0⟩ "y" ⟨0⟩ 0 (.int 5) h₁ = .ok () h₂ := Op.run_of_ok (by decide +kernel)
  have kept := spared (shared.mpr (.inr ⟨rfl, by decide +kernel⟩)) h₂
    (.single (.write ⟨0⟩ 0 (.int 5) (by decide +kernel) (fun o object => by cases object) (.inl write)))
    [0] 0
  have before : (readThrough ⟨0⟩ "x" [0] 0).result h = .ok (.int 1) := by decide +kernel
  exact ⟨_, h, none, h₁, h₂, RunIn.of_run run, assigned, write, by decide +kernel, kept.trans before⟩

/-- An element that nothing else had brought on its way is written in place, and the list shows it. -/
theorem extraction_shows :
    ∃ past h previous h₁ h₂, Run Distinct {} past h ∧
      h.bound? ⟨0⟩ "x" = some (.vector ⟨1⟩) ∧ (readThrough ⟨0⟩ "x" [] 0).result h = .ok (.list ⟨0⟩) ∧
      Op.assign ⟨0⟩ "y" (.vector ⟨0⟩) h = .ok previous h₁ ∧
      (readThrough ⟨0⟩ "x" [0] 0).result h₁ = .ok (.int 1) ∧
      Op.modifyBound ⟨0⟩ "y" ⟨0⟩ 0 (.int 5) h₁ = .ok () h₂ ∧
      (readThrough ⟨0⟩ "x" [0] 0).result h₂ = .ok (.int 5) := by
  obtain ⟨past, run⟩ := boundList_run
  let h₁ : Heap := (Op.assign ⟨0⟩ "y" (.vector ⟨0⟩)).after boundList
  have assigned : Op.assign ⟨0⟩ "y" (.vector ⟨0⟩) boundList = .ok none h₁ :=
    Op.run_of_ok (by decide +kernel)
  have write : Op.modifyBound ⟨0⟩ "y" ⟨0⟩ 0 (.int 5) h₁ = .ok () _ := Op.run_of_ok (by decide +kernel)
  exact ⟨past, boundList, none, h₁, _, run, by decide +kernel, by decide +kernel, assigned,
    by decide +kernel, write, by decide +kernel⟩

end Heap
end VectorHeap
