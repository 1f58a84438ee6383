import VectorHeap.Proofs.Switching
import VectorHeap.Proofs.ValueSemantics

/-! Sharing states and names. As long as frames change by assigning and removing only, the sharing
states of vectors keep up with the names that are bound to them: states never move back, so what
removing and overwriting leave behind is a state that is too high, never one that is too low. -/
namespace VectorHeap

open Op

def Call.bindsSilently : Call → Bool
  | cloneFrame _ | insertBinding .. => true
  | _ => false

/-- One step that changes frames by assigning and removing only. -/
inductive AssignStep (h : Heap) : Heap → Prop
  | answer {h' : Heap} (call : Call) (ok : call.Admissible h) (plain : call.bindsSilently = false)
      (run : call.op h = .ok () h') : AssignStep h h'
  | stop {h' : Heap} (call : Call) (f : Fault) (ok : call.Admissible h)
      (plain : call.bindsSilently = false) (run : call.op h = .error f h') : AssignStep h h'
  | bury (roots : List Ref) (r : Ref) (dead : r ∈ h.dead roots) : AssignStep h (h.bury r)
  | work (c : ContextId) : AssignStep h (h.work c)
  | shutdown (c : ContextId) : AssignStep h (h.shutdown c)

inductive AssignRun (h₀ : Heap) : List Heap → Heap → Prop
  | start : AssignRun h₀ [] h₀
  | step {past : List Heap} {h h' : Heap} (run : AssignRun h₀ past h) (last : AssignStep h h') :
    AssignRun h₀ (h :: past) h'

theorem AssignStep.step {h h' : Heap} (s : AssignStep h h') : Step (fun _ => True) h h' := by
  cases s with
  | answer call ok plain run => exact .answer call ok run
  | stop call f ok plain run => exact .stop call f ok run trivial
  | bury roots r dead => exact .bury roots r dead
  | work c => exact .work c
  | shutdown c => exact .shutdown c

theorem AssignRun.run {h₀ h : Heap} {past : List Heap} (run : AssignRun h₀ past h) :
    Run (fun _ => True) h₀ past h := by
  induction run with
  | start => exact .start
  | step _ last ih => exact ih.step last.step

namespace Heap

variable {allowed : Fault → Prop} {h h' h₀ : Heap} {f : FrameId} {x : String} {v : VectorId}
  {value : Value} {past : List Heap}

/-! ### States do not move back -/

/-- No vector that is there before and after is shared less. -/
def Forwards (h h' : Heap) : Prop :=
  ∀ v cell cell', h.vectors.find? v = some cell → h'.vectors.find? v = some cell' →
    cell.sharing ≤ cell'.sharing

theorem forwards_of_vectors (same : h'.vectors = h.vectors) : h.Forwards h' := by
  intro v cell cell' found found'
  rw [same] at found'
  cases found.symm.trans found'
  exact cell.sharing.le_refl

theorem Moves.forwards {T : VectorId → Prop} {B : BufferId → Prop} (I : h.Intact)
    (M : h.Moves T B h') : h.Forwards h' := by
  intro v cell cell' found found'
  obtain ⟨cell₁, found₁, more⟩ := M.sharing I found
  cases found₁.symm.trans found'
  exact more

theorem Extends.forwards (E : h.Extends h') : h.Forwards h' := by
  intro v cell cell' found found'
  obtain ⟨p, found₁, _⟩ := E.vectors v cell found
  cases found₁.symm.trans found'
  exact cell.sharing.le_refl

theorem Sheds.forwards (S : h.Sheds h') : h.Forwards h' := by
  intro v cell cell' found found'
  cases found.symm.trans (S.vectors v cell' found')
  exact cell.sharing.le_refl

theorem Forwards.trans {g : Heap} (first : g.Forwards h) (last : h.Forwards h')
    (F : g.Follows h) (F' : h.Follows h') : g.Forwards h' := by
  intro v cell cell' found found'
  have issued := F.issued (.vector v) (Store.lt_next_of_find _ v cell found)
  obtain ⟨cell₁, found₁⟩ := (Store.contains_iff _ v).mp
    (F'.object (.vector v) issued ((Store.contains_iff _ v).mpr ⟨cell', found'⟩))
  exact SharingState.le_trans (first v cell cell₁ found found₁) (last v cell₁ cell' found₁ found')

theorem step_forwards (I : h.Intact) (s : Step allowed h h') : h.Forwards h' := by
  rcases step_cases I s with ⟨T, B, h₁, M, rfl | R⟩ | ⟨_, f, T, B, h₁, M, R⟩ | S
  · exact M.forwards I
  · have forwards := M.forwards I
    rw [R.rest]
    exact forwards
  · have I₁ := M.intact I
    have E := R.extends I₁
    intro v cell cell' found found'
    obtain ⟨cell₁, found₁, more⟩ := M.sharing I found
    exact SharingState.le_trans more (E.forwards v cell₁ cell' found₁ found')
  · exact S.forwards

theorem run_forwards (I : h₀.Intact) (run : Run allowed h₀ past h) :
    ∀ g ∈ past, g.Forwards h := by
  induction run with
  | start => exact fun g hg => absurd hg List.not_mem_nil
  | step run last ih =>
    have I₁ := run_intact I run
    have forwards := step_forwards I₁ last
    have F := step_follows I₁ last
    exact List.forall_mem_cons.mpr ⟨forwards, fun g hg =>
      (ih g hg).trans forwards (run_follows I run g hg) F⟩

/-! ### States keep up with names -/

/-- A vector that a name is bound to is not temporary, and behind two names it is shared. -/
structure Bindings (h : Heap) : Prop where
  owned : ∀ f x v cell, h.bound? f x = some (.vector v) → h.vectors.find? v = some cell →
    .owned ≤ cell.sharing
  shared : ∀ f x g y v cell, h.bound? f x = some (.vector v) → h.bound? g y = some (.vector v) →
    ¬ (g = f ∧ y = x) → h.vectors.find? v = some cell → cell.sharing = .shared

theorem Intact.bound_found (I : h.Intact) (bound : h.bound? f x = some (.vector v)) :
    ∃ cell, h.vectors.find? v = some cell :=
  has_vector_iff.mp (I.has_of_mem_refs (bound_held bound _ (List.mem_singleton_self _)))

theorem Bindings.carry (B : h.Bindings) (I : h.Intact) (forwards : h.Forwards h')
    (old : ∀ f x value, h'.bound? f x = some value → h.bound? f x = some value) : h'.Bindings where
  owned f x v cell' bound found' := by
    obtain ⟨cell, found⟩ := I.bound_found (old f x _ bound)
    exact SharingState.le_trans (B.owned f x v cell (old f x _ bound) found)
      (forwards v cell cell' found found')
  shared f x g y v cell' bound bound' other found' := by
    obtain ⟨cell, found⟩ := I.bound_found (old f x _ bound)
    have more := forwards v cell cell' found found'
    rw [B.shared f x g y v cell (old f x _ bound) (old g y _ bound') other found] at more
    exact SharingState.eq_shared more

theorem Moves.bindings {T : VectorId → Prop} {W : BufferId → Prop} (I : h.Intact)
    (M : h.Moves T W h') (B : h.Bindings) : h'.Bindings :=
  B.carry I (M.forwards I) (fun f x _ bound => (bound_congr M.frames f x).symm.trans bound)

theorem Refusal.frames {f : Fault} (R : h.Refusal f h') : h'.frames = h.frames := by
  induction R with
  | entered h c ctx o site found issued => rfl
  | discarded h h' cell rest ih => exact ih

theorem Refusal.bindings {f : Fault} (I : h.Intact) (R : h.Refusal f h') (B : h.Bindings) : h'.Bindings :=
  B.carry I (R.extends I).forwards (fun f x _ bound => (bound_congr R.frames f x).symm.trans bound)

theorem Sheds.bindings (I : h.Intact) (S : h.Sheds h') (B : h.Bindings) : h'.Bindings := by
  refine B.carry I S.forwards (fun f x value bound => ?_)
  obtain ⟨b, found, there⟩ := Option.bind_eq_some_iff.mp bound
  rw [bound?, S.frames f b found]
  exact there

theorem Bindings.insert (B : h.Bindings) (there : h.has (.frame f) = true)
    (owned : ∀ v cell, value = .vector v → h.vectors.find? v = some cell → .owned ≤ cell.sharing)
    (shared : ∀ g y v cell, value = .vector v → h.bound? g y = some value → ¬ (g = f ∧ y = x) →
      h.vectors.find? v = some cell → cell.sharing = .shared) :
    (h.modifyFrame f (·.insert x value)).Bindings := by
  have here : ∀ {g y w}, (h.modifyFrame f (·.insert x value)).bound? g y = some (.vector w) →
      ((g = f ∧ y = x) ∧ value = .vector w) ∨
        (¬ (g = f ∧ y = x) ∧ h.bound? g y = some (.vector w)) := by
    intro g y w bound
    rw [bound_insert there] at bound
    split at bound
    · rename_i same
      exact .inl ⟨same, Option.some.inj bound⟩
    · rename_i other
      exact .inr ⟨other, bound⟩
  refine ⟨fun g y w cell bound found => ?_, fun g y g' y' w cell bound bound' other found => ?_⟩
  · rcases here bound with ⟨_, rfl⟩ | ⟨_, old⟩
    · exact owned w cell rfl found
    · exact B.owned g y w cell old found
  · rcases here bound with ⟨⟨rfl, rfl⟩, rfl⟩ | ⟨apart, old⟩
    · rcases here bound' with ⟨same, _⟩ | ⟨apart', old'⟩
      · exact absurd same other
      · exact shared g' y' w cell rfl old' apart' found
    · rcases here bound' with ⟨⟨rfl, rfl⟩, rfl⟩ | ⟨_, old'⟩
      · exact shared g y w cell rfl old apart found
      · exact B.shared g y g' y' w cell old old' other found

theorem Bindings.assign (B : h.Bindings) (I : h.Intact) (there : h.has (.frame f) = true)
    (alive : ∀ r ∈ value.refs, h.has r = true) (x : String) :
    Outcome (Op.assign f x value) h (fun _ h' => h'.Bindings) (fun _ h' => h'.Bindings) := by
  obtain ⟨b, found⟩ := has_frame_iff.mp there
  have bound : h.bound? f x = b.find? x := by rw [bound?, found, Option.bind_some]
  have P : Performs _ _ (bindingStep (b.find? x) value) h _ (fun _ _ => False) :=
    bindingStep_performs I (b.find? x) alive
  have run := assign_run found x value
  cases step : bindingStep (b.find? x) value h with
  | error fault h₁ =>
    rw [bind_of_error step] at run
    refine .of_error run ?_
    rcases P.error step with ⟨_, never⟩ | ⟨_, h₂, M, R⟩
    · exact never.elim
    · exact R.bindings (M.intact I) (M.bindings I B)
  | ok u h₁ =>
    obtain ⟨M, stepped⟩ := P.ok step
    have found₁ : h₁.frames.find? f = some b := by rw [M.frames]; exact found
    rw [bind_of_ok step, insertBinding_run found₁] at run
    have B₁ := M.bindings I B
    have bound₁ : ∀ g y, h₁.bound? g y = h.bound? g y := bound_congr M.frames
    -- Either the name was bound to the vector before, or the vector took a step for it.
    have cases_of : ∀ w cell₁, value = .vector w → h₁.vectors.find? w = some cell₁ →
        h₁.bound? f x = some (.vector w) ∨ ∃ cell, h.vectors.find? w = some cell ∧
          cell₁.sharing = cell.sharing.after .assign := by
      rintro w cell₁ rfl there₁
      by_cases same : b.find? x = some (.vector w)
      · exact .inl ((bound₁ f x).trans (bound.trans same))
      · obtain ⟨cell, there_w⟩ := has_vector_iff.mp (alive _ (List.mem_singleton_self _))
        have shows := (stepped w cell rfl same there_w).1
        rw [sequence?, there₁, Option.map_some] at shows
        exact .inr ⟨cell, there_w, congrArg Sequence.sharing (Option.some.inj shows)⟩
    refine .of_ok run (B₁.insert (has_frame_iff.mpr ⟨b, found₁⟩) (fun w cell₁ same there₁ => ?_)
      (fun g y w cell₁ same bound' other there₁ => ?_))
    · rcases cases_of w cell₁ same there₁ with here | ⟨cell, _, state⟩
      · exact B₁.owned f x w cell₁ here there₁
      · rw [state]
        exact owned_after _ _
    · rcases cases_of w cell₁ same there₁ with here | ⟨cell, there_w, state⟩
      · exact B₁.shared f x g y w cell₁ here (same ▸ bound') other there₁
      · rw [state]
        exact shared_after (B.owned g y w cell ((bound₁ g y).symm.trans (same ▸ bound')) there_w) _

theorem Bindings.call (B : h.Bindings) (I : h.Intact) {call : Call} (ok : call.Admissible h)
    (plain : call.bindsSilently = false) :
    Outcome call.op h (fun _ h' => h'.Bindings) (fun _ h' => h'.Bindings) := by
  by_cases binds : call.binds = false
  · refine Outcome.mono (call.settles I ok binds) (fun _ _ o => o.1.bindings I B) ?_
    rintro f h' (⟨M, _⟩ | ⟨_, h₁, M, R⟩)
    · exact M.bindings I B
    · exact R.bindings (M.intact I) (M.bindings I B)
  · cases call with
    | cloneFrame f => cases plain
    | insertBinding f x value => cases plain
    | assign f x value =>
      obtain ⟨there, held⟩ := List.forall_mem_cons.mp ok.alive
      exact (B.assign I there held x).map
    | removeBinding f x =>
      obtain ⟨b, found⟩ := has_frame_iff.mp (ok.alive _ (List.mem_singleton_self _))
      refine Outcome.map (.of_ok (removeBinding_run found x)
        (B.carry I (forwards_of_vectors rfl) (fun g y value bound => ?_)))
      rw [bound_erase] at bound
      split at bound
      · cases bound
      · exact bound
    | newFrame =>
      refine .of_ok rfl (B.carry I (forwards_of_vectors rfl) (fun g y value bound => ?_))
      obtain ⟨b, found, there⟩ := Option.bind_eq_some_iff.mp bound
      rcases Store.eq_or_find_of_find_add found with ⟨_, rfl⟩ | old
      · exact absurd there (by simp)
      · rw [bound?, old]
        exact there
    | _ => exact absurd rfl binds

/-- No such step lets a name get ahead of its vector. -/
theorem step_bindings (I : h.Intact) (s : AssignStep h h') (B : h.Bindings) : h'.Bindings := by
  cases s with
  | answer call ok plain run => exact (B.call I ok plain).ok run
  | stop call f ok plain run => exact (B.call I ok plain).error run
  | bury roots r dead => exact (bury_sheds I (mem_dead_iff.mp dead).2.2.1).bindings I B
  | work c => exact (work_sheds I c).bindings I B
  | shutdown c => exact (shutdown_sheds I c).bindings I B

theorem run_bindings (I : h₀.Intact) (B : h₀.Bindings) (run : AssignRun h₀ past h) :
    h.Bindings := by
  induction run with
  | start => exact B
  | step run last ih => exact step_bindings (run_intact I run.run) last ih

theorem bindings_of_supply (supply : Nat → Nat → Option Address) : Heap.Bindings { supply } where
  owned _ _ _ _ _ found := absurd found (by simp)
  shared _ _ _ _ _ _ _ _ _ found := absurd found (by simp)

/-! ### Assignments that take no step -/

theorem assign_still (there : h.has (.frame f) = true)
    (still : value.vector? = none ∨ h.bound? f x = some value) : Op.assign f x value h =
      .ok (h.bound? f x) { h with frames := h.frames.modify f (·.insert x value) } := by
  obtain ⟨b, found⟩ := has_frame_iff.mp there
  have bound : h.bound? f x = b.find? x := by rw [bound?, found, Option.bind_some]
  have quiet : bindingStep (b.find? x) value h = .ok () h := by
    unfold bindingStep
    rcases still with other | same
    · rw [other]
      rfl
    · rw [← bound, same]
      cases value.vector? with
      | none => rfl
      | some v => simp only [Option.any_some, Value.same, beq_self_eq_true, if_true]; rfl
  rw [assign_run found, bind_of_ok quiet, insertBinding_run found, bound]
  rfl

theorem passArguments_filter (as : List Argument) (h : Heap) :
    passArguments as h = passArguments (as.filter (fun a => !a.constant)) h := by
  induction as generalizing h with
  | nil => rfl
  | cons a as ih =>
    by_cases constant : a.constant = true
    · have quiet : passArgument a h = .ok none h := by
        unfold passArgument
        rw [if_pos constant]
        rfl
      rw [List.filter_cons_of_neg (by simp [constant]), ← ih]
      exact bind_of_ok ((map_run _ _ h).trans (by rw [quiet]))
    · rw [List.filter_cons_of_pos (by simp [constant]), passArguments, passArguments, bind_run,
        bind_run]
      cases discard (passArgument a) h with
      | ok _ h₁ => exact ih h₁
      | error _ _ => rfl

/-- After any run in which frames changed by assigning and removing only: a vector that a name is
bound to is not temporary, and behind two names it is shared. No vector is shared less than it was at
any time before. Binding anything but a plain vector, or the vector that the name is bound to already,
changes the frame and nothing else, and constants move no state. -/
theorem sharing_after_run {supply : Nat → Nat → Option Address} (run : AssignRun { supply } past h) :
    (∀ f x v, h.bound? f x = some (.vector v) →
      ∃ cell, h.vectors.find? v = some cell ∧ cell.sharing ≠ .temporary) ∧
    (∀ f x g y v, h.bound? f x = some (.vector v) → h.bound? g y = some (.vector v) →
      ¬ (g = f ∧ y = x) → ∃ cell, h.vectors.find? v = some cell ∧ cell.sharing = .shared) ∧
    (∀ g ∈ past, ∀ v cell cell', g.vectors.find? v = some cell → h.vectors.find? v = some cell' →
      cell.sharing ≤ cell'.sharing) ∧
    (∀ f x value, h.has (.frame f) = true → value.vector? = none ∨ h.bound? f x = some value →
      Op.assign f x value h =
        .ok (h.bound? f x) { h with frames := h.frames.modify f (·.insert x value) }) ∧
    ∀ as, passArguments as h = passArguments (as.filter (fun a => !a.constant)) h := by
  have start := intact_of_supply supply
  have I := run_intact start run.run
  have B := run_bindings start (bindings_of_supply supply) run
  refine ⟨fun f x v bound => ?_, fun f x g y v bound bound' other => ?_,
    run_forwards start run.run, fun f x value there still => assign_still there still,
    fun as => passArguments_filter as h⟩
  · obtain ⟨cell, found⟩ := I.bound_found bound
    refine ⟨cell, found, fun temporary => ?_⟩
    have owned := B.owned f x v cell bound found
    rw [temporary] at owned
    exact absurd owned (by decide)
  · obtain ⟨cell, found⟩ := I.bound_found bound
    exact ⟨cell, found, B.shared f x g y v cell bound bound' other found⟩

/-- A vector that was bound to two names, of which one was removed again. -/
theorem sharing_after_removal :
    ∃ past h cell cell', AssignRun {} past h ∧
      (∃ g ∈ past, g.vectors.find? ⟨0⟩ = some cell ∧ cell.sharing = .shared) ∧
      h.bound? ⟨0⟩ "y" = none ∧ h.bound? ⟨0⟩ "x" = some (.vector ⟨0⟩) ∧
      h.vectors.find? ⟨0⟩ = some cell' ∧ cell'.sharing = .shared := by
  let h₁ : Heap := (Call.newContext .default).op.after {}
  let h₂ : Heap := (Call.newVector ⟨0⟩ .int [.int 1]).op.after h₁
  let h₃ : Heap := Call.newFrame.op.after h₂
  let h₄ : Heap := (Call.assign ⟨0⟩ "x" (.vector ⟨0⟩)).op.after h₃
  let h₅ : Heap := (Call.assign ⟨0⟩ "y" (.vector ⟨0⟩)).op.after h₄
  let h₆ : Heap := (Call.removeBinding ⟨0⟩ "y").op.after h₅
  have run₅ : AssignRun {} [h₄, h₃, h₂, h₁, {}] h₅ := by
    refine ((((AssignRun.start.step ?_).step ?_).step ?_).step ?_).step ?_
    · exact .answer (.newContext .default) ⟨by decide, by simp⟩ rfl rfl
    · exact .answer (.newVector ⟨0⟩ .int [.int 1]) ⟨by decide +kernel, by simp⟩ rfl
        (Op.run_of_ok (by decide +kernel))
    · exact .answer .newFrame ⟨by decide +kernel, by simp⟩ rfl (Op.run_of_ok (by decide +kernel))
    · exact .answer (.assign ⟨0⟩ "x" (.vector ⟨0⟩)) ⟨by decide +kernel, by simp⟩ rfl
        (Op.run_of_ok (by decide +kernel))
    · exact .answer (.assign ⟨0⟩ "y" (.vector ⟨0⟩)) ⟨by decide +kernel, by simp⟩ rfl
        (Op.run_of_ok (by decide +kernel))
  have run₆ : AssignRun {} [h₅, h₄, h₃, h₂, h₁, {}] h₆ :=
    run₅.step (.answer (.removeBinding ⟨0⟩ "y") ⟨by decide +kernel, by simp⟩ rfl
      (Op.run_of_ok (by decide +kernel)))
  obtain ⟨_, twice, _⟩ := sharing_after_run run₅
  obtain ⟨cell, found, shared⟩ := twice ⟨0⟩ "x" ⟨0⟩ "y" ⟨0⟩ (by decide +kernel) (by decide +kernel)
    (by decide)
  have left : h₆.bound? ⟨0⟩ "x" = some (.vector ⟨0⟩) := by decide +kernel
  obtain ⟨bound, _, forwards, _⟩ := sharing_after_run run₆
  obtain ⟨cell', found', _⟩ := bound ⟨0⟩ "x" ⟨0⟩ left
  have more := forwards h₅ (by simp) ⟨0⟩ cell cell' found found'
  rw [shared] at more
  exact ⟨_, h₆, cell, cell', run₆, ⟨h₅, by simp, found, shared⟩, by decide +kernel, left, found',
    SharingState.eq_shared more⟩

end Heap
end VectorHeap
