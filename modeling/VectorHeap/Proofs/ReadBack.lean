import VectorHeap.Proofs.Lookup
import VectorHeap.Proofs.Refinement

/-! Elements of string and list vectors that are read back. An element stays in its slot until that
is written again. A managed vector reads it from there. A native vector looks its handle up in its
own context, and so finds it exactly if it is of that context. -/
namespace VectorHeap

/-- Calls that do not write a slot of a vector and do not cut it off. -/
def Call.Spares (v : VectorId) (i : Nat) : Call → Prop
  | set w j _ => w = v → j ≠ i
  | setLength w n => w = v → i < n
  | _ => True

/-- A step that does not write a slot of a vector, does not cut it off and does not bury the
vector. -/
inductive Spares (v : VectorId) (i : Nat) (h : Heap) : Heap → Prop
  | answer {h' : Heap} (call : Call) (ok : call.Admissible h) (run : call.op h = .ok () h')
      (spares : call.Spares v i) : Spares v i h h'
  | stop {h' : Heap} (call : Call) (f : Fault) (ok : call.Admissible h)
      (run : call.op h = .error f h') (distinct : Heap.Distinct f) (spares : call.Spares v i) :
    Spares v i h h'
  | bury (roots : List Ref) (kept : .vector v ∈ roots) (r : Ref) (dead : r ∈ h.dead roots) :
    Spares v i h (h.bury r)
  | work (c : ContextId) : Spares v i h (h.work c)
  | shutdown (c : ContextId) : Spares v i h (h.shutdown c)

theorem Spares.step {v : VectorId} {i : Nat} {h h' : Heap} (s : Spares v i h h') :
    Step Heap.Distinct h h' := by
  cases s with
  | answer call ok run spares => exact .answer call ok run
  | stop call f ok run distinct spares => exact .stop call f ok run distinct
  | bury roots kept r dead => exact .bury roots r dead
  | work c => exact .work c
  | shutdown c => exact .shutdown c

inductive SparingRun (v : VectorId) (i : Nat) (h₀ : Heap) : List Heap → Heap → Prop
  | start : SparingRun v i h₀ [] h₀
  | step {past : List Heap} {h h' : Heap} (run : SparingRun v i h₀ past h)
      (last : Spares v i h h') : SparingRun v i h₀ (h :: past) h'

theorem SparingRun.intact {v : VectorId} {i : Nat} {past : List Heap} {h h' : Heap} (I : h.Intact)
    (run : SparingRun v i h past h') : h'.Intact := by
  induction run with
  | start => exact I
  | step run last ih => exact Heap.step_intact ih last.step

theorem SparingRun.run {v : VectorId} {i : Nat} {past later : List Heap} {h₀ h h' : Heap}
    (first : Run Heap.Distinct h₀ past h) (rest : SparingRun v i h later h') :
    ∃ past', Run Heap.Distinct h₀ past' h' := by
  induction rest with
  | start => exact ⟨past, first⟩
  | step rest last ih =>
    obtain ⟨past', run⟩ := ih
    exact ⟨_, run.step last.step⟩

theorem Elem.isIndirect_of_object {e : Elem} {o : Object} (ho : e.object? = some o) :
    e.type.isIndirect = true := by
  cases e <;> first | rfl | cases ho

theorem Elem.eq_toElem_of_object {e : Elem} {o : Object} (ho : e.object? = some o) :
    e = o.toElem := by
  cases e <;> cases ho <;> rfl

namespace Heap

open Op

def HoldsAt (h : Heap) (v : VectorId) (i : Nat) (e : Elem) : Prop :=
  ∃ s, h.sequence? v = some s ∧ i < s.length ∧ s.slots[i]? = some e

variable {h h' : Heap} {v : VectorId} {i : Nat} {e : Elem} {o : Object} {c : ContextId}
  {cell : VectorCell}

/-! ### Elements stay in their slots -/

theorem HoldsAt.of_same (H : h.HoldsAt v i e) (same : h'.sequence? v = h.sequence? v) :
    h'.HoldsAt v i e := by
  obtain ⟨s, shows, used⟩ := H
  exact ⟨s, same.trans shows, used⟩

theorem HoldsAt.there (H : h.HoldsAt v i e) : h.has (.vector v) = true := by
  obtain ⟨s, shows, _⟩ := H
  obtain ⟨cell, found, _⟩ := sequence_eq_some_iff.mp shows
  exact has_vector_iff.mpr ⟨cell, found⟩

theorem HoldsAt.foreign (I : h.Intact) (H : h.HoldsAt v i e) (ho : e.object? = some o) :
    h.foreign? v = none := by
  obtain ⟨s, shows, _, slot⟩ := H
  obtain ⟨cell, found, rfl⟩ := sequence_eq_some_iff.mp shows
  have F := I.vectors v cell found
  have type := F.type_elements (List.mem_of_getElem? slot)
  have indirect := e.isIndirect_of_object ho
  refine Option.eq_none_iff_forall_not_mem.mpr (fun b there => ?_)
  obtain ⟨cell', p, q, a, found', hp, hq, external⟩ := foreign_eq_some_iff.mp there
  cases found.symm.trans found'
  cases hb : cell.buffer with
  | some buffer =>
    have bare := ((F.managed buffer hb).bare p q hp hq).1
    exact absurd (bare.symm.trans external) (by simp)
  | none =>
    obtain ⟨p', q', hp', hq', N⟩ := F.native hb
    cases hp.symm.trans hp'
    cases hq.symm.trans hq'
    have backed := N.backed
    rw [external] at backed
    rw [type] at indirect
    exact absurd (indirect.symm.trans backed.2.1) (by decide)

theorem HoldsAt.advance {T : VectorId → Prop} {B : BufferId → Prop} (I : h.Intact)
    (H : h.HoldsAt v i e) (plain : h.foreign? v = none) (A : h.Advances T B h')
    (untouched : ¬ T v) : h'.HoldsAt v i e := by
  obtain ⟨s, shows, used⟩ := H
  obtain ⟨h₁, M, last⟩ := A
  have kept := (M.untouched I untouched (fun b there => by simp [plain] at there) shows).1
  rcases last with rfl | R
  · exact ⟨s, kept, used⟩
  · exact ⟨s, (R.sequence v).trans kept, used⟩

theorem HoldsAt.shares (H : h.HoldsAt v i e) (S : h.Shares h') : h'.HoldsAt v i e := by
  obtain ⟨s, shows, used⟩ := H
  obtain ⟨state, _, kept, _⟩ := S v s shows
  exact ⟨_, kept, used⟩

theorem outcome_of_performs {α : Type} {T : VectorId → Prop} {B : BufferId → Prop} {op : Op α}
    {answers : α → Heap → Prop} {stops : Fault → Heap → Prop} {fact : Heap → Prop}
    (P : Performs T B op h answers stops) (ok : ∀ a h', answers a h' → fact h')
    (stop : ∀ f h', stops f h' → fact h') :
    Outcome op h (fun _ h' => fact h') (fun f h' => Distinct f → fact h') := by
  refine Outcome.mono P (fun a h' o => ok a h' o.2) ?_
  rintro f h' (⟨_, o⟩ | ⟨⟨k, rfl⟩, _⟩) distinct
  · exact stop f h' o
  · exact absurd rfl (distinct k)

section
variable (I : h.Intact) (H : h.HoldsAt v i e)
include I H

theorem HoldsAt.set {j : Nat} (other : j ≠ i) {e' : Elem}
    (alive : ∀ o, e'.object? = some o → h.isAlive o = true) :
    Outcome (setElem v j e') h (fun _ h' => h'.HoldsAt v i e)
      (fun f h' => Distinct f → h'.HoldsAt v i e) := by
  obtain ⟨s, shows, lt, slot⟩ := H
  obtain ⟨cell, found, rfl⟩ := sequence_eq_some_iff.mp shows
  refine outcome_of_performs (setElem_performs I found alive j) ?_ ?_
  · rintro _ h' ⟨s', written, after, _⟩
    rw [set_eq written] at after
    exact ⟨_, after, lt, (List.getElem?_set_ne other).trans slot⟩
  · rintro f h' (⟨rfl, _⟩ | ⟨_, _, after⟩)
    · exact ⟨_, shows, lt, slot⟩
    · exact ⟨_, after, lt, slot⟩

theorem HoldsAt.setLength {n : Nat} (room : i < n) :
    Outcome (Op.setLength v n) h (fun _ h' => h'.HoldsAt v i e)
      (fun f h' => Distinct f → h'.HoldsAt v i e) := by
  obtain ⟨s, shows, lt, slot⟩ := H
  obtain ⟨cell, found, rfl⟩ := sequence_eq_some_iff.mp shows
  refine outcome_of_performs (setLength_performs (B := Nowhere) I found n) ?_ ?_
  · rintro _ h' ⟨s', moved, after⟩
    refine ⟨s', after, ?_, by rw [setLength_eq moved]; exact slot⟩
    unfold Sequence.setLength at moved
    split at moved
    · exact absurd moved (by simp)
    · cases moved
      exact room
  · rintro f h' ⟨rfl, _⟩
    exact ⟨_, shows, lt, slot⟩

theorem HoldsAt.setCapacity (n : Nat) :
    Outcome (Op.setCapacity v n) h (fun _ h' => h'.HoldsAt v i e)
      (fun f h' => Distinct f → h'.HoldsAt v i e) := by
  obtain ⟨s, shows, lt, slot⟩ := H
  obtain ⟨cell, found, rfl⟩ := sequence_eq_some_iff.mp shows
  refine outcome_of_performs (setCapacity_performs I found n) ?_ ?_
  · rintro _ h' ⟨low, es, _, _, after⟩
    refine ⟨_, after, lt, ?_⟩
    have inside : i < n := Nat.lt_of_lt_of_le lt low
    have bound : i < ((h.sequence cell).slots.take n).length := by
      obtain ⟨there, _⟩ := List.getElem?_eq_some_iff.mp slot
      rw [List.length_take]
      exact Nat.lt_min.mpr ⟨inside, there⟩
    refine (List.getElem?_append_left bound).trans ?_
    rw [List.getElem?_take_of_lt inside]
    exact slot
  · rintro f h' ⟨after, _⟩
    exact ⟨_, after, lt, slot⟩

theorem HoldsAt.promote :
    Outcome (Op.promote v) h (fun _ h' => h'.HoldsAt v i e)
      (fun f h' => Distinct f → h'.HoldsAt v i e) := by
  obtain ⟨s, shows, lt, slot⟩ := H
  obtain ⟨cell, found, rfl⟩ := sequence_eq_some_iff.mp shows
  refine outcome_of_performs (promote_performs I found) ?_ ?_
  · rintro k h' ⟨⟨after, _⟩, _⟩
    exact ⟨_, after, lt, slot⟩
  · rintro f h' ⟨⟨after, _⟩, _⟩
    exact ⟨_, after, lt, slot⟩

theorem HoldsAt.setSharing {f : SharingState → SharingState} (forward : ∀ state, state ≤ f state) :
    Outcome (Op.setSharing v f) h (fun _ h' => h'.HoldsAt v i e)
      (fun f h' => Distinct f → h'.HoldsAt v i e) := by
  obtain ⟨s, shows, lt, slot⟩ := H
  obtain ⟨cell, found, rfl⟩ := sequence_eq_some_iff.mp shows
  have P : Performs (Only v) Nowhere (Op.setSharing v f) h _ (fun _ _ => False) :=
    setSharing_performs I found forward
  refine outcome_of_performs P ?_ (fun _ _ => False.elim)
  rintro state h' ⟨_, after, _⟩
  exact ⟨_, after, lt, slot⟩

theorem HoldsAt.copy {w : VectorId} (there : h.has (.vector w) = true) :
    Outcome (Op.copy w) h (fun _ h' => h'.HoldsAt v i e)
      (fun f h' => Distinct f → h'.HoldsAt v i e) := by
  obtain ⟨cell, found⟩ := has_vector_iff.mp there
  refine outcome_of_performs (copy_changes I found) ?_ ?_
  · rintro u h' ⟨_, _, shares⟩
    exact H.shares shares
  · rintro f h' ⟨rfl, _⟩
    exact H

theorem HoldsAt.writable {w : VectorId} (there : h.has (.vector w) = true) :
    Outcome (Op.writable w) h (fun _ h' => h'.HoldsAt v i e)
      (fun f h' => Distinct f → h'.HoldsAt v i e) := by
  obtain ⟨cell, found⟩ := has_vector_iff.mp there
  have run := Call.writable_run found
  split at run
  · have copied := H.copy I there
    unfold Outcome at copied ⊢
    rw [run]
    exact copied
  · exact .of_ok run H

theorem HoldsAt.assign {f : FrameId} {b : Frame} (found : h.frames.find? f = some b)
    (name : String) {value : Value} (alive : ∀ r ∈ value.refs, h.has r = true) :
    Outcome (Op.assign f name value) h (fun _ h' => h'.HoldsAt v i e)
      (fun f h' => Distinct f → h'.HoldsAt v i e) := by
  have P : Performs _ _ (bindingStep (b.find? name) value) h _ (fun _ _ => False) :=
    bindingStep_performs I (b.find? name) alive
  unfold Outcome
  rw [assign_run found name value]
  refine Outcome.bind_run (fun g h₁ step distinct => ?_) (fun _ h₁ step => ?_)
  · rcases P.error step with ⟨_, never⟩ | ⟨⟨k, rfl⟩, _⟩
    · exact never.elim
    · exact absurd rfl (distinct k)
  · obtain ⟨M, leaves⟩ := P.ok step
    have found₁ : h₁.frames.find? f = some b := by rw [M.frames]; exact found
    refine .of_ok (insertBinding_run found₁ name value) (HoldsAt.of_same ?_ rfl)
    obtain ⟨s, shows, lt, slot⟩ := H
    obtain ⟨cell, there, rfl⟩ := sequence_eq_some_iff.mp shows
    by_cases moved : value = .vector v ∧ b.find? name ≠ some value
    · obtain ⟨after, _⟩ := leaves v cell moved.1 moved.2 there
      exact ⟨_, after, lt, slot⟩
    · exact ⟨_, (M.untouched I moved (fun _ _ => id) shows).1, lt, slot⟩

end

theorem HoldsAt.touched (I : h.Intact) (H : h.HoldsAt v i e) {call : Call} (ok : call.Admissible h)
    (spares : call.Spares v i) (touched : call.touches h v) :
    Outcome call.op h (fun _ h' => h'.HoldsAt v i e)
      (fun f h' => Distinct f → h'.HoldsAt v i e) := by
  cases call with
  | set w j e' =>
    cases touched
    obtain ⟨there, held⟩ := List.forall_mem_cons.mp ok.alive
    refine H.set I (spares rfl) (fun o ho => ?_)
    rw [← has_ofObject]
    exact held _ (by simp [Elem.refs, ho])
  | setLength w n =>
    cases touched
    exact H.setLength I (spares rfl)
  | setCapacity w n =>
    cases touched
    exact H.setCapacity I n
  | promote w =>
    cases touched
    exact Outcome.map (H.promote I)
  | applyTrigger w t =>
    cases touched
    exact Outcome.map (H.setSharing I (·.le_after t))
  | markBound w =>
    cases touched
    exact Outcome.map (H.setSharing I SharingState.le_markBound)
  | markShared w =>
    cases touched
    exact Outcome.map (H.setSharing I SharingState.le_shared)
  | copy w => exact Outcome.map (H.copy I (ok.alive _ (List.mem_singleton_self _)))
  | writable w => exact Outcome.map (H.writable I (ok.alive _ (List.mem_singleton_self _)))
  | assign f name value =>
    obtain ⟨frame, held⟩ := List.forall_mem_cons.mp ok.alive
    obtain ⟨b, found⟩ := has_frame_iff.mp frame
    exact Outcome.map (H.assign I found name held)
  | passArguments as =>
    have P : Performs _ _ (Op.passArguments as) h _ (fun _ _ => False) :=
      passArguments_performs I as (fun a ha r hr =>
        ok.alive r (List.mem_flatMap.mpr ⟨a, ha, hr⟩))
    exact outcome_of_performs P (fun _ h' shares => H.shares shares) (fun _ _ => False.elim)
  | adopt c type buffer length =>
    exact absurd (H.there.symm.trans touched) (by decide)
  | _ => exact touched.elim

theorem HoldsAt.call (I : h.Intact) (H : h.HoldsAt v i e) (ho : e.object? = some o) {call : Call}
    (ok : call.Admissible h) (spares : call.Spares v i) :
    Outcome call.op h (fun _ h' => h'.HoldsAt v i e)
      (fun f h' => Distinct f → h'.HoldsAt v i e) := by
  by_cases touched : call.touches h v
  · exact H.touched I ok spares touched
  · have plain := H.foreign I ho
    refine Outcome.mono (call.ends I ok) (fun _ h' A => H.advance I plain A touched) ?_
    rintro f h' (⟨_, A⟩ | ⟨⟨k, rfl⟩, _⟩) distinct
    · exact H.advance I plain A touched
    · exact absurd rfl (distinct k)

theorem HoldsAt.shed (I : h.Intact) (H : h.HoldsAt v i e) (S : h.Sheds h')
    (there : h'.has (.vector v) = true) : h'.HoldsAt v i e := by
  refine H.of_same ?_
  obtain ⟨cell, found⟩ := has_vector_iff.mp there
  exact S.sequence I found

theorem HoldsAt.step (I : h.Intact) (H : h.HoldsAt v i e) (ho : e.object? = some o)
    (step : Spares v i h h') : h'.HoldsAt v i e := by
  have there := H.there
  cases step with
  | answer call ok run spares => exact (H.call I ho ok spares).ok run
  | stop call f ok run distinct spares => exact (H.call I ho ok spares).error run distinct
  | bury roots kept r dead =>
    obtain ⟨_, root, unheld, _⟩ := mem_dead_iff.mp dead
    have other : r ≠ .vector v := fun same => root (same ▸ kept)
    refine H.shed I (bury_sheds I unheld) ?_
    rw [has, bury_vectors]
    exact (has_without other).trans there
  | work c =>
    refine H.shed I (work_sheds I c) ?_
    rw [has, work_vectors]
    exact there
  | shutdown c => exact H.shed I (shutdown_sheds I c) there

theorem HoldsAt.later {past : List Heap} (I : h.Intact) (H : h.HoldsAt v i e)
    (ho : e.object? = some o) (run : SparingRun v i h past h') : h'.HoldsAt v i e := by
  induction run with
  | start => exact H
  | step run last ih => exact ih.step (run.intact I) ho last

theorem step_contextOf (I : h.Intact) (step : Step Distinct h h') {d : ContextId}
    (own : h.contextOf? o = some d) (alive : h'.isAlive o = true) : h'.contextOf? o = some d := by
  rcases step_cases I step with ⟨T, B, h₁, M, rfl | R⟩ | ⟨⟨k, distinct⟩, _⟩ | S
  · exact M.contextOf I own
  · exact (R.contextOf o).trans (M.contextOf I own)
  · exact absurd rfl (distinct k)
  · exact (S.contextOf alive).trans own

theorem HoldsAt.alive (I : h.Intact) (H : h.HoldsAt v i e) (ho : e.object? = some o) :
    h.isAlive o = true := by
  obtain ⟨s, shows, _, slot⟩ := H
  obtain ⟨cell, found, rfl⟩ := sequence_eq_some_iff.mp shows
  exact I.alive_of_mem found (List.mem_of_getElem? slot) ho

/-- Neither a vector nor what it holds moves to another context. -/
theorem HoldsAt.contexts_later {past : List Heap} (I : h.Intact) (H : h.HoldsAt v i e)
    (ho : e.object? = some o) (run : SparingRun v i h past h') {d : ContextId}
    (own : h.contextOf? (.vector v) = some c) (mine : h.contextOf? o = some d) :
    h'.contextOf? (.vector v) = some c ∧ h'.contextOf? o = some d := by
  induction run with
  | start => exact ⟨own, mine⟩
  | step run last ih =>
    have H' := (H.later I ho run).step (run.intact I) ho last
    have I' := step_intact (run.intact I) last.step
    exact ⟨step_contextOf (run.intact I) last.step ih.1 H'.there,
      step_contextOf (run.intact I) last.step ih.2 (H'.alive I' ho)⟩

/-! ### What is read -/

/-- The elements of a vector are in a managed buffer. -/
def isManaged (h : Heap) (v : VectorId) : Bool :=
  (h.vectors.find? v).any (·.buffer.isSome)

/-- An element of a vector is read from the slot that holds it, but native slots find only elements
of the context of the vector. -/
theorem HoldsAt.getElem_eq_ok_iff (I : h.Intact) (N : h.NamesIn c) (H : h.HoldsAt v i e)
    (ho : e.object? = some o) (own : h.contextOf? (.vector v) = some c) :
    getElem v i h = .ok e h ↔ h.isManaged v = true ∨ h.contextOf? o = some c := by
  obtain ⟨s, shows, lt, slot⟩ := H
  obtain ⟨cell, found, rfl⟩ := sequence_eq_some_iff.mp shows
  have F := I.vectors v cell found
  have type : e.type = cell.type := F.type_elements (List.mem_of_getElem? slot)
  have indirect : cell.type.isIndirect = true := type ▸ e.isIndirect_of_object ho
  cases e.eq_toElem_of_object ho
  cases hb : cell.buffer with
  | some b =>
    obtain ⟨e', slot', run⟩ := getElem_managed I found hb lt
    cases slot.symm.trans slot'
    simp [run, isManaged, found, hb]
  | none =>
    obtain ⟨p, q, hp, hq, M⟩ := F.native hb
    have context : cell.context = c := by
      rw [contextOf?, found] at own
      exact Option.some.inj own
    subst context
    obtain ⟨ctx, hctx⟩ := I.context_of_vector found
    have pin : q.pins[i]? = some o := by
      change (h.elements cell)[i]? = _ at slot
      rw [elements_native hb hp hq, nativeElements_indirect indirect, List.getElem?_map] at slot
      obtain ⟨o', pin, same⟩ := Option.map_eq_some_iff.mp slot
      exact Object.eq_of_toElem_eq same ▸ pin
    -- The slot holds the handle of the pin, so what is read is what that handle resolves to here.
    have named := ((M.indirect indirect).word i o pin).1
    have read := (getElem_native I found hb hp lt).trans
      (loadNative_indirect indirect hq M (Nat.lt_of_lt_of_le lt F.window) pin)
    have managed : h.isManaged v = false := by simp [isManaged, found, hb]
    rw [read, managed]
    constructor
    · intro run
      cases resolved : h.resolve? cell.context (h.handleOf o) with
      | none =>
        rw [bind_of_error (by rw [lookup_run hctx, resolved])] at run
        exact absurd run (by simp)
      | some o' =>
        rw [bind_of_ok (by rw [lookup_run hctx, resolved])] at run
        have checked := checkType_run (h := h) cell.type o'.toElem.type
        have same : o' = o := by
          split at checked
          · have answer := (bind_of_ok checked).symm.trans run
            exact Object.eq_of_toElem_eq (EStateM.Result.ok.inj answer).1
          · exact absurd ((bind_of_error checked).symm.trans run) (by simp)
        exact .inr (((N ctx hctx).resolve_eq_some_iff I hctx _ o).mp (same ▸ resolved)).1
    · rintro (never | mine)
      · exact absurd never (by decide)
      · have resolved := ((N ctx hctx).resolve_eq_some_iff I hctx _ o).mpr ⟨mine, named, rfl⟩
        have checked := checkType_run (h := h) cell.type o.toElem.type
        rw [if_pos type] at checked
        exact (bind_of_ok (by rw [lookup_run hctx, resolved])).trans (bind_of_ok checked)

theorem HoldsAt.getElem_own (I : h.Intact) (N : h.NamesIn c) (H : h.HoldsAt v i e)
    (own : h.contextOf? (.vector v) = some c) (mine : h.Own c [e]) : getElem v i h = .ok e h := by
  cases ho : e.object? with
  | some o => exact (H.getElem_eq_ok_iff I N ho own).mpr (.inr (mine e (List.mem_singleton_self e) o ho))
  | none =>
    obtain ⟨s, shows, lt, slot⟩ := H
    obtain ⟨cell, found, rfl⟩ := sequence_eq_some_iff.mp shows
    have F := I.vectors v cell found
    have type : e.type = cell.type := F.type_elements (List.mem_of_getElem? slot)
    have readable : h.Readable cell := by
      intro _ e' he' o ho'
      have indirect := e'.isIndirect_of_object ho'
      rw [F.type_elements he', ← type] at indirect
      obtain ⟨o', rfl⟩ := Elem.eq_toElem indirect
      exact absurd ((Object.object_toElem o').symm.trans ho) (by simp)
    obtain ⟨e', slot', run⟩ := getElem_run I found readable lt
    cases slot.symm.trans slot'
    exact run

theorem holdsAt_of_set (I : h.Intact) (found : h.vectors.find? v = some cell)
    (alive : ∀ o, e.object? = some o → h.isAlive o = true) (write : setElem v i e h = .ok () h') :
    h'.HoldsAt v i e := by
  obtain ⟨_, s, written, shows, _⟩ := (setElem_performs I found alive i).ok write
  have F := I.vectors v cell found
  have lt : i < cell.length := by
    unfold Sequence.set at written
    split at written
    · exact absurd written (by simp)
    · split at written
      · exact absurd written (by simp)
      · split at written
        · assumption
        · exact absurd written (by simp)
  have bound : i < (h.elements cell).length := Nat.lt_of_lt_of_le lt F.length_le_elements
  rw [set_eq written] at shows
  exact ⟨_, shows, lt, List.getElem?_set_self bound⟩

/-- After any run in which no handle was registered twice, an object that a string or list vector
holds, or that is written into it, is in its slot until that is written again, whatever else happens
and also if the vector is promoted meanwhile. It is read back as long as the vector is managed; once
it is native, exactly if the object is of the context of the vector. -/
theorem read_back_iff {supply : Nat → Nat → Option Address} {past : List Heap}
    (run : Run Distinct { supply } past h) (own : h.contextOf? (.vector v) = some c)
    (ho : e.object? = some o) (alive : h.isAlive o = true) :
    (∀ h₁, setElem v i e h = .ok () h₁ → ∀ later h₂, SparingRun v i h₁ later h₂ →
      (getElem v i h₂ = .ok e h₂ ↔ h₂.isManaged v = true ∨ h.contextOf? o = some c)) ∧
    (h.HoldsAt v i e → ∀ later h₂, SparingRun v i h later h₂ →
      (getElem v i h₂ = .ok e h₂ ↔ h₂.isManaged v = true ∨ h.contextOf? o = some c)) := by
  have held : ∀ past h₁, Run Distinct { supply } past h₁ → h₁.HoldsAt v i e →
      h₁.contextOf? (.vector v) = some c → h₁.contextOf? o = h.contextOf? o →
      ∀ later h₂, SparingRun v i h₁ later h₂ →
        (getElem v i h₂ = .ok e h₂ ↔ h₂.isManaged v = true ∨ h.contextOf? o = some c) := by
    intro past h₁ run₁ H own₁ same later h₂ rest
    have I₁ := run_intact (intact_of_supply supply) run₁
    obtain ⟨d, mine⟩ := isAlive_iff_contextOf.mp alive
    obtain ⟨own₂, mine₂⟩ := H.contexts_later I₁ ho rest own₁ (same.trans mine)
    obtain ⟨past', run₂⟩ := rest.run run₁
    have N : h₂.NamesIn c := fun ctx found => (run_balanced run₂ c ctx found).names
    rw [(H.later I₁ ho rest).getElem_eq_ok_iff (rest.intact I₁) N ho own₂, mine₂, mine]
  refine ⟨fun h₁ write => ?_, fun H => held past h run H own rfl⟩
  have I := run_intact (intact_of_supply supply) run
  obtain ⟨cell, found, _⟩ := Option.map_eq_some_iff.mp own
  have objects : ∀ o', e.object? = some o' → h.isAlive o' = true := by
    intro o' ho'
    cases ho.symm.trans ho'
    exact alive
  have M := ((setElem_performs I found objects i).ok write).1
  obtain ⟨d, mine⟩ := isAlive_iff_contextOf.mp alive
  have run₁ : Run Distinct { supply } (h :: past) h₁ := by
    refine run.step (.answer (.set v i e) ⟨?_, nofun⟩ write)
    intro r hr
    rcases List.mem_cons.mp hr with rfl | hr
    · exact has_vector_iff.mpr ⟨cell, found⟩
    · simp only [Elem.refs, ho, Option.toList_some, List.map_cons, List.map_nil,
        List.mem_singleton] at hr
      rw [hr, has_ofObject]
      exact alive
  exact held _ h₁ run₁ (holdsAt_of_set I found objects write) (M.contextOf I own)
    ((M.contextOf I mine).trans mine.symm)

/-- A string that is written into a promoted vector of strings, which grows afterwards. -/
theorem read_back_after_write :
    ∃ past h h₁ later h₂, Run Distinct {} past h ∧ setElem ⟨0⟩ 0 (.str ⟨1⟩) h = .ok () h₁ ∧
      SparingRun ⟨0⟩ 0 h₁ later h₂ ∧ h₂.isManaged ⟨0⟩ = false ∧
      getElem ⟨0⟩ 0 h₂ = .ok (.str ⟨1⟩) h₂ := by
  let h₁ : Heap := (Call.newContext .default).op.after {}
  let h₂ : Heap := (Call.newString ⟨0⟩ "a").op.after h₁
  let h₃ : Heap := (Call.newString ⟨0⟩ "b").op.after h₂
  let h₄ : Heap := (Call.newVector ⟨0⟩ .str [.str ⟨0⟩]).op.after h₃
  let h₅ : Heap := (Call.promote ⟨0⟩).op.after h₄
  let h₆ : Heap := (setElem ⟨0⟩ 0 (.str ⟨1⟩)).after h₅
  let h₇ : Heap := (Call.setCapacity ⟨0⟩ 2).op.after h₆
  have run : Run Distinct {} [h₄, h₃, h₂, h₁, {}] h₅ := by
    refine ((((Run.start.step ?_).step ?_).step ?_).step ?_).step ?_
    · exact .answer (.newContext .default) ⟨by decide, by simp⟩ rfl
    · exact .answer (.newString ⟨0⟩ "a") ⟨by decide, by simp⟩ rfl
    · exact .answer (.newString ⟨0⟩ "b") ⟨by decide, by simp⟩ rfl
    · exact .answer (.newVector ⟨0⟩ .str [.str ⟨0⟩]) ⟨by decide +kernel, by simp⟩
        (Op.run_of_ok (by decide +kernel))
    · exact .answer (.promote ⟨0⟩) ⟨by decide +kernel, by simp⟩ (Op.run_of_ok (by decide +kernel))
  have write : setElem ⟨0⟩ 0 (.str ⟨1⟩) h₅ = .ok () h₆ := Op.run_of_ok (by decide +kernel)
  have later : SparingRun ⟨0⟩ 0 h₆ [h₆] h₇ := by
    refine .step .start (.answer (.setCapacity ⟨0⟩ 2) ⟨by decide +kernel, by simp⟩ ?_ trivial)
    exact Op.run_of_ok (by decide +kernel)
  have read := (read_back_iff (v := ⟨0⟩) (i := 0) (e := .str ⟨1⟩) (o := .string ⟨1⟩) (c := ⟨0⟩) run
    (by decide +kernel) rfl (by decide +kernel)).1 h₆ write _ h₇ later
  exact ⟨_, h₅, h₆, _, h₇, run, write, later, by decide +kernel,
    read.mpr (.inr (by decide +kernel))⟩

/-- A string of another context that is written into a promoted vector reads as a string of its own
that has the same handle. -/
theorem clash_after_write :
    ∃ past h h₁, Run Distinct {} past h ∧ h.contextOf? (.vector ⟨0⟩) = some ⟨0⟩ ∧
      h.contextOf? (.string ⟨1⟩) = some ⟨1⟩ ∧ h.has (.context ⟨1⟩) = true ∧
      setElem ⟨0⟩ 0 (.str ⟨1⟩) h = .ok () h₁ ∧ (getElem ⟨0⟩ 0).result h₁ = .ok (.str ⟨0⟩) := by
  let h₁ : Heap := (Call.newContext .default).op.after {}
  let h₂ : Heap := (Call.newContext .default).op.after h₁
  let h₃ : Heap := (Call.newString ⟨0⟩ "a").op.after h₂
  let h₄ : Heap := (Call.newString ⟨1⟩ "b").op.after h₃
  let h₅ : Heap := (Call.newVector ⟨0⟩ .str [.str ⟨0⟩]).op.after h₄
  let h₆ : Heap := (Call.promote ⟨0⟩).op.after h₅
  have run : Run Distinct {} [h₅, h₄, h₃, h₂, h₁, {}] h₆ := by
    refine (((((Run.start.step ?_).step ?_).step ?_).step ?_).step ?_).step ?_
    · exact .answer (.newContext .default) ⟨by decide, by simp⟩ rfl
    · exact .answer (.newContext .default) ⟨by decide, by simp⟩ rfl
    · exact .answer (.newString ⟨0⟩ "a") ⟨by decide, by simp⟩ rfl
    · exact .answer (.newString ⟨1⟩ "b") ⟨by decide, by simp⟩ rfl
    · exact .answer (.newVector ⟨0⟩ .str [.str ⟨0⟩]) ⟨by decide +kernel, by simp⟩
        (Op.run_of_ok (by decide +kernel))
    · exact .answer (.promote ⟨0⟩) ⟨by decide +kernel, by simp⟩ (Op.run_of_ok (by decide +kernel))
  exact ⟨_, h₆, (setElem ⟨0⟩ 0 (.str ⟨1⟩)).after h₆, run, by decide +kernel, by decide +kernel,
    by decide +kernel, Op.run_of_ok (by decide +kernel), by decide +kernel⟩

end Heap
end VectorHeap
