import VectorHeap.Proofs.Ledger
import VectorHeap.Proofs.Refinement

/-! Value semantics. A vector that is bound to several names is copied before it is written, so that
names behave as if each had contents of its own. -/
namespace VectorHeap

open Op

def Op.modifyBound (f : FrameId) (x : String) (v : VectorId) (i : Nat) (e : Elem) : Op Unit := do
  let w ← writable v
  setElem w i e
  discard (assign f x (.vector w))

namespace Heap

variable {h h' : Heap} {c : ContextId} {l : Ledger} {f : FrameId} {x : String} {v w : VectorId}
  {s : Sequence}

/-! ### Assignments -/

/-- A vector that may be assigned to a name: nothing foreign is behind it and another bound vector. -/
structure Assignable (h : Heap) (c : ContextId) (v : VectorId) (s : Sequence) : Prop
    extends h.Tracked v c s where
  plain : s.type ≠ .list
  apart : ∀ g y w b, h.bound? g y = some (.vector w) → h.foreign? v = some b →
    h.foreign? w = some b → v = w

theorem owned_after (state : SharingState) (t : SharingTrigger) : .owned ≤ state.after t := by
  cases state <;> cases t <;> decide

theorem shared_after {state : SharingState} (owned : .owned ≤ state) (t : SharingTrigger) :
    state.after t = .shared := by
  cases state
  · exact absurd owned (by decide)
  · cases t <;> rfl
  · cases t <;> rfl

theorem Agrees.stepped (A : h.Agrees c l) (V : h.Assignable c v s) {b : Frame}
    (found : h.frames.find? f = some b)
    (M : h.Moves (fun w => Value.vector v = .vector w ∧ b.find? x ≠ some (.vector v)) Nowhere h')
    (leaves : b.find? x ≠ some (.vector v) →
      h.Leaves v { s with sharing := s.sharing.after .assign } h') :
    h'.Agrees c l ∧ ∃ s', h'.Bindable c f x v s' ∧ s'.content = s.content := by
  have bound₀ : ∀ g y, h'.bound? g y = h.bound? g y := bound_congr M.frames
  by_cases same : b.find? x = some (.vector v)
  · -- the name is bound to the vector already
    have here : h.bound? f x = some (.vector v) := by rw [bound?, found]; exact same
    have nothing : h.Moves Nowhere Nowhere h' :=
      M.mono (fun w touched => touched.2 same) (fun _ => id)
    have still := nothing.leaves A.intact V.sequence
    have A' := A.apart_from nothing (fun _ _ _ _ => ⟨id, fun _ _ => id⟩)
    obtain ⟨s', B, _⟩ := A'.bound ((bound₀ f x).trans here)
    cases B.sequence.symm.trans still.1
    refine ⟨A', s, ⟨B, fun g y there other => ?_, fun g y w b there => ?_⟩, rfl⟩
    · exact A'.shared f x g y v s ((bound₀ f x).trans here) there B.sequence other
    · exact A'.apart f x g y v w b ((bound₀ f x).trans here) there
  · have leaves := leaves same
    have kept : ∀ g y w s₀, h.bound? g y = some (.vector w) → h.sequence? w = some s₀ →
        ∃ state, s₀.sharing ≤ state ∧ h.Leaves w { s₀ with sharing := state } h' := by
      intro g y w s₀ _ shows
      by_cases mine : w = v
      · subst mine
        cases V.sequence.symm.trans shows
        exact ⟨_, s.sharing.le_after .assign, leaves⟩
      · exact M.leaves_untouched A.intact (fun touched => mine (Value.vector.inj touched.1).symm)
          (fun _ _ => id) shows
    have A' := A.move M kept
    have t : h'.Tracked v c { s with sharing := s.sharing.after .assign } :=
      ⟨A'.intact, A'.balanced, leaves.1, M.contextOf A.intact V.context, V.own.later A.intact M⟩
    refine ⟨A', _, ⟨⟨t, V.plain, owned_after _ _⟩, fun g y there other => ?_,
      fun g y w b there behind behind' => ?_⟩, rfl⟩
    · obtain ⟨s₀, B, _⟩ := A.bound ((bound₀ g y).symm.trans there)
      cases B.sequence.symm.trans V.sequence
      exact shared_after B.owned _
    · have there₀ := (bound₀ g y).symm.trans there
      by_cases mine : w = v
      · exact mine.symm
      · obtain ⟨s₀, B, _⟩ := A.bound there₀
        obtain ⟨_, _, old⟩ := kept g y w s₀ there₀ B.sequence
        exact V.apart g y w b there₀ (leaves.2 b behind) (old.2 b behind')

theorem Agrees.assign (A : h.Agrees c l) (V : h.Assignable c v s) (there : h.has (.frame f) = true)
    (x : String) : Outcome (Op.assign f x (.vector v)) h
      (fun _ h' => h'.Agrees c (l.bind f x (some s.content))) (fun fault _ => ¬ Distinct fault) := by
  obtain ⟨b, found⟩ := has_frame_iff.mp there
  obtain ⟨cell, there_v, shown⟩ := sequence_eq_some_iff.mp V.sequence
  have held : ∀ r ∈ (Value.vector v).refs, h.has r = true := by
    intro r hr
    cases List.mem_singleton.mp hr
    exact has_vector_iff.mpr ⟨cell, there_v⟩
  have P : Performs _ _ (bindingStep (b.find? x) (.vector v)) h _ (fun _ _ => False) :=
    bindingStep_performs A.intact (b.find? x) held
  have run := assign_run found x (.vector v)
  cases step : bindingStep (b.find? x) (.vector v) h with
  | error fault h₁ =>
    rw [bind_of_error step] at run
    refine .of_error run (fun distinct => ?_)
    rcases P.error step with ⟨_, never⟩ | ⟨⟨k, rfl⟩, _⟩
    · exact never
    · exact distinct k rfl
  | ok u h₁ =>
    obtain ⟨M, leaves⟩ := P.ok step
    obtain ⟨A₁, s₁, V₁, content⟩ := A.stepped V found M (fun other => by
      have left := leaves v cell rfl other there_v
      rw [shown] at left
      exact left)
    have found₁ : h₁.frames.find? f = some b := by rw [M.frames]; exact found
    have there₁ : h₁.has (.frame f) = true := has_frame_iff.mpr ⟨b, found₁⟩
    have R := insert_rebinds A₁.intact f x (fun r hr => M.has A.intact (held r hr))
    rw [bind_of_ok step, insertBinding_run found₁] at run
    refine .of_ok run (A₁.rebind R (fun g alive => ?_) (fun g y other => ?_) (.inr ?_))
    · exact (isSome_eq_of_map_eq (h₁.frames.map_find_modify f g _ (fun _ => ()) (fun _ _ => rfl))).symm.trans
        alive
    · rw [bound_insert there₁, if_neg other]
    · exact ⟨v, s₁, by rw [bound_insert there₁, if_pos ⟨rfl, rfl⟩], V₁, by rw [content]⟩

theorem Agrees.remove (A : h.Agrees c l) (there : h.has (.frame f) = true) (x : String) :
    Outcome (Op.removeBinding f x) h (fun _ h' => h'.Agrees c (l.bind f x none))
      (fun _ _ => False) := by
  obtain ⟨b, found⟩ := has_frame_iff.mp there
  refine .of_ok (removeBinding_run found x) (A.rebind (erase_rebinds A.intact f x)
    (fun g alive => ?_) (fun g y other => ?_) (.inl ⟨?_, rfl⟩))
  · exact (isSome_eq_of_map_eq (h.frames.map_find_modify f g _ (fun _ => ()) (fun _ _ => rfl))).symm.trans
      alive
  · rw [bound_erase, if_neg other]
  · rw [bound_erase, if_pos ⟨rfl, rfl⟩]

/-! ### Writes -/

/-- A vector that is written for a name: no other name shows it. -/
structure Writable (h : Heap) (c : ContextId) (f : FrameId) (x : String) (w : VectorId)
    (s : Sequence) : Prop extends h.Assignable c w s where
  unshared : s.sharing.isShared = false
  alone : ∀ g y, h.bound? g y = some (.vector w) → g = f ∧ y = x

theorem Agrees.copy (A : h.Agrees c l) (B : h.Bound v c s) (f : FrameId) (x : String) :
    Outcome (Op.copy v) h (fun w h₁ => h₁.Agrees c l ∧ h₁.frames = h.frames ∧
      (∀ es, h.Own c es → h₁.Own c es) ∧ ∃ s', h₁.Writable c f x w s' ∧ s'.content = s.content)
      (fun fault _ => ¬ Distinct fault) := by
  obtain ⟨cell, found, rfl, rfl, readable⟩ := B.readable
  have listless : ∀ w, .list w ∉ h.elements cell := fun w there =>
    B.plain ((A.intact.vectors v cell found).type_elements there).symm
  have P : Performs _ _ (Op.copy v) h _ (fun _ _ => False) := copy_performs A.intact found readable
  refine Outcome.mono P ?_ ?_
  · rintro w h₁ ⟨M, b, _, slots, made⟩
    have quiet : h.Moves Nowhere Nowhere h₁ := M.mono (fun w there => listless w there) (fun _ => id)
    have A₁ := A.apart_from quiet (fun _ _ _ _ => ⟨id, fun _ _ => id⟩)
    have unbound : ∀ g y, h₁.bound? g y ≠ some (.vector w) := by
      intro g y there
      obtain ⟨s₀, B₀, _⟩ := A.bound ((bound_congr M.frames g y).symm.trans there)
      obtain ⟨cell₀, found₀, _⟩ := B₀.readable
      exact absurd (made.new.symm.trans (has_vector_iff.mpr ⟨cell₀, found₀⟩)) (by simp)
    have own : h₁.Own cell.context b.slots := fun e he o ho =>
      M.contextOf A.intact (B.own e (List.mem_of_mem_take (slots ▸ he)) o ho)
    refine ⟨A₁, M.frames, fun es mine => mine.later A.intact M, _, ⟨⟨⟨A₁.intact, A₁.balanced, made.sequence,
      made.own, own⟩, B.plain, fun _ _ _ _ _ behind => ?_⟩, rfl, fun g y there => ?_⟩, ?_⟩
    · exact absurd (made.foreign.symm.trans behind) (by simp)
    · exact absurd there (unbound g y)
    · simp only [Sequence.content, Sequence.elements, slots, List.take_take, Nat.min_self]
      rfl
  · rintro fault h₁ (⟨_, never⟩ | ⟨⟨k, rfl⟩, _⟩) distinct
    · exact never
    · exact distinct k rfl

theorem Agrees.writable (A : h.Agrees c l) (bound : h.bound? f x = some (.vector v)) :
    Outcome (Op.writable v) h (fun w h₁ => h₁.Agrees c l ∧ h₁.frames = h.frames ∧
      (∀ es, h.Own c es → h₁.Own c es) ∧ ∃ s, h₁.Writable c f x w s ∧ l f x = some s.content)
      (fun fault _ => ¬ Distinct fault) := by
  obtain ⟨s, B, content⟩ := A.bound bound
  obtain ⟨cell, found, shown, _⟩ := B.readable
  have run := Call.writable_run found
  have sharing : cell.sharing = s.sharing := by rw [← shown]; rfl
  by_cases shared : cell.sharing.isShared = true
  · rw [if_pos shared] at run
    have copied := A.copy B f x
    unfold Outcome at copied ⊢
    rw [run]
    split at copied
    · obtain ⟨A₁, frames, kept, s', W, same⟩ := copied
      exact ⟨A₁, frames, kept, s', W, content.trans (congrArg some same.symm)⟩
    · exact copied
  · rw [if_neg shared] at run
    have unshared : s.sharing.isShared = false := sharing ▸ Bool.eq_false_iff.mpr shared
    refine .of_ok run ⟨A, rfl, fun _ => id, s, ⟨⟨B.toTracked, B.plain, fun g y w b there => ?_⟩, unshared,
      fun g y there => ?_⟩, content⟩
    · exact A.apart f x g y v w b bound there
    · refine Decidable.byContradiction (fun other => ?_)
      rw [A.shared f x g y v s bound there B.sequence other] at unshared
      exact absurd unshared (by decide)

theorem Agrees.set (A : h.Agrees c l) (W : h.Writable c f x w s) {e : Elem} (mine : h.Own c [e])
    (i : Nat) : Outcome (Op.setElem w i e) h
      (fun _ h' => ∃ s' l', s.content.set i e = .ok s'.content ∧ h'.Agrees c l' ∧
        h'.frames = h.frames ∧ (∀ g y, ¬ (g = f ∧ y = x) → l' g y = l g y) ∧ h'.Assignable c w s')
      (fun fault h' => Distinct fault → s.content.set i e = .error fault ∧ h' = h) := by
  obtain ⟨cell, found, shown, context, _⟩ := W.readable
  have window : s.length ≤ s.capacity := by
    have F := A.intact.vectors w cell found
    rw [← shown]
    exact F.length_le_elements
  have content := Sequence.content_set window W.unshared i e (h.isNA e)
  have held := mine e (List.mem_singleton_self e)
  have P := setElem_performs A.intact found
    (fun o ho => isAlive_iff_contextOf.mpr ⟨c, held o ho⟩) i
  rw [shown] at P
  refine Outcome.mono P ?_ ?_
  · rintro _ h' ⟨M, s', ok, leaves⟩
    rw [ok] at content
    have stored := set_eq ok
    have intact := M.intact A.intact
    have balanced := M.balanced A.intact A.balanced
    have own : h'.Own c s'.slots := by
      rw [stored]
      exact (W.own.later A.intact M).set (mine.later A.intact M) i
    have t : h'.Tracked w c s' := ⟨intact, balanced, leaves.1, M.contextOf A.intact W.context, own⟩
    have others : ∀ g y u, h.bound? g y = some (.vector u) → u ≠ w →
        ∀ b, h.foreign? u = some b → h.foreign? w ≠ some b :=
      fun g y u there other b behind behind' => other (W.apart g y u b there behind' behind).symm
    -- A name is bound to this vector, whose slot is new, or to one that shares nothing with it.
    have bound₀ : ∀ g y, h'.bound? g y = h.bound? g y := bound_congr M.frames
    refine ⟨s', fun g y => if h.bound? g y = some (.vector w) then some s'.content else l g y, content,
      A.carry intact balanced (fun g y _ => bound₀ g y) (fun g y alive none => ?_)
        (fun g y u s₀ there B held => ?_), M.frames, fun g y other => ?_, t, ?_,
        fun g y u b there behind behind' => ?_⟩
    · rw [has, M.frames] at alive
      exact (if_neg (by simp [none])).trans (A.unbound alive none)
    · by_cases same : u = w
      · subst same
        cases B.sequence.symm.trans W.sequence
        refine ⟨s', t, by rw [stored]; rfl, ?_, if_pos there, leaves.2⟩
        rw [stored]
        exact s.sharing.le_refl
      · obtain ⟨shows, foreign⟩ := M.untouched A.intact same (others g y u there same) B.sequence
        refine ⟨s₀, ⟨intact, balanced, shows, M.contextOf A.intact B.context, B.own.later A.intact M⟩,
          rfl, s₀.sharing.le_refl, ?_, fun b behind => foreign ▸ behind⟩
        exact (if_neg (fun there' => same (Value.vector.inj (Option.some.inj
          (there.symm.trans there'))))).trans held
    · exact if_neg (fun there => other (W.alone g y there))
    · rw [stored]
      exact W.plain
    · rw [bound₀] at there
      by_cases same : u = w
      · exact same.symm
      · obtain ⟨s₀, B, _⟩ := A.bound there
        obtain ⟨_, foreign⟩ := M.untouched A.intact same (others g y u there same) B.sequence
        exact W.apart g y u b there (leaves.2 b behind) (foreign ▸ behind')
  · rintro fault h' (⟨_, ⟨rfl, refused⟩ | ⟨rfl, ⟨o, ho, orphaned⟩, _⟩⟩ | ⟨⟨k, rfl⟩, _⟩) distinct
    · rw [refused] at content
      exact ⟨content, rfl⟩
    · exact absurd orphaned (not_orphaned (held o ho) W.has_context)
    · exact absurd rfl (distinct k)

theorem Agrees.modify (A : h.Agrees c l) (bound : h.bound? f x = some (.vector v)) {e : Elem}
    (mine : h.Own c [e]) (i : Nat) : Outcome (Op.modifyBound f x v i e) h
      (fun _ h' => (l.modify f x i e).1 = .ok () ∧ h'.Agrees c (l.modify f x i e).2)
      (fun fault h' => Distinct fault →
        (l.modify f x i e).1 = .error fault ∧ h'.Agrees c (l.modify f x i e).2) := by
  refine Outcome.bind ((A.writable bound).mono (fun _ _ => id)
    (fun _ _ taken distinct => absurd distinct taken)) ?_
  rintro w h₁ ⟨A₁, frames₁, kept, s, W, holds⟩
  refine Outcome.bind ((A₁.set W (kept _ mine) i).mono (fun _ _ => id) ?_) ?_
  · rintro fault h₂ stop distinct
    obtain ⟨refused, rfl⟩ := stop distinct
    have spec : l.modify f x i e = (.error fault, l) := by
      simp only [Ledger.modify, holds, refused]
    rw [spec]
    exact ⟨rfl, A₁⟩
  · rintro _ h₂ ⟨s', l', set, A₂, frames₂, elsewhere, V⟩
    have spec : l.modify f x i e = (.ok (), l.bind f x (some s'.content)) := by
      simp only [Ledger.modify, holds, set]
    have there : h₂.has (.frame f) = true := by
      rw [has, frames₂, frames₁]
      exact bound_frame bound
    rw [spec, ← Ledger.bind_congr elsewhere]
    refine Outcome.map ((A₂.assign V there x).mono (fun _ h' A' => ⟨rfl, A'⟩) ?_)
    exact fun _ _ taken distinct => absurd distinct taken

/-! ### Fresh vectors -/

/-- A fresh vector can be assigned, unless it lies over the memory of a vector that is bound. -/
theorem Agrees.make (A : h.Agrees c l) {made : Construction} (ok : made.Admissible h c)
    (plain : made.type ≠ .list)
    (apart : ∀ type b length, made = .adopt type b length →
      ∀ g y w, h.bound? g y = some (.vector w) → h.foreign? w ≠ some b) :
    Outcome (made.op c) h (fun v h' => h'.Agrees c l ∧ h'.frames = h.frames ∧
      ∃ s, made.Begins c h h' s ∧ h'.Assignable c v s)
      (fun fault h' => Distinct fault → h'.Agrees c l) := by
  have there : ∀ g y w, h.bound? g y = some (.vector w) → ¬ h.has (.vector w) = false := by
    intro g y w bound new
    have alive := A.intact.has_of_mem_refs (bound_held bound _ (List.mem_singleton_self _))
    exact absurd (new.symm.trans alive) (by simp)
  refine Outcome.mono (made.performs A.intact ok) ?_ ?_
  · rintro v h' ⟨M, s, begins, shows, context, own, adopted⟩
    have A' := A.apart_from M (fun g y w bound => ⟨there g y w bound, fun _ _ => id⟩)
    refine ⟨A', M.frames, s, begins, ⟨⟨A'.intact, A'.balanced, shows, context, own⟩,
      begins.type ▸ plain, fun g y w b bound behind behind' => ?_⟩⟩
    obtain ⟨type, length, rfl⟩ := adopted b behind
    rw [bound_congr M.frames] at bound
    obtain ⟨s₀, B, _⟩ := A.bound bound
    obtain ⟨_, foreign⟩ := M.untouched A.intact (there g y w bound) (fun _ _ => id) B.sequence
    exact absurd (foreign ▸ behind') (apart type b length rfl g y w bound)
  · rintro fault h' (⟨M, _⟩ | ⟨⟨k, rfl⟩, _⟩) distinct
    · exact A.apart_from M (fun g y w bound => ⟨there g y w bound, fun _ _ => id⟩)
    · exact absurd rfl (distinct k)

end Heap
end VectorHeap
