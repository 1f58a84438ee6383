import VectorHeap.Proofs.Frames

/-! Passing arguments counts. Each vector takes as many steps towards shared as arguments stand for it,
in whatever order they are passed. -/
namespace VectorHeap

open Op

namespace SharingState

def advanced (s : SharingState) (steps : Nat) : SharingState := ofRank (min (s.rank + steps) shared.rank)

theorem advanced_zero (s : SharingState) : s.advanced 0 = s := by cases s <;> rfl

theorem advanced_after (s : SharingState) (t : SharingTrigger) (steps : Nat) :
    (s.after t).advanced steps = s.advanced (steps + 1) := by
  have same : min (min (s.rank + 1) 2 + steps) shared.rank = min (s.rank + (steps + 1)) shared.rank := by
    change min _ 2 = min _ 2
    omega
  rw [advanced, advanced, rank_after, same]

end SharingState

namespace Heap

variable {h : Heap} {v : VectorId}

def passed (h : Heap) (v : VectorId) : Heap :=
  h.modifyVector v (fun cell => { cell with sharing := cell.sharing.after .pass })

def passedAll (h : Heap) (vs : List VectorId) : Heap := vs.foldl passed h

theorem passed_comm (h : Heap) (v w : VectorId) : (h.passed v).passed w = (h.passed w).passed v := by
  by_cases same : v = w
  · rw [same]
  · exact congrArg (fun vectors => { h with vectors })
      (h.vectors.modify_comm same (fun cell => { cell with sharing := cell.sharing.after .pass })
        (fun cell => { cell with sharing := cell.sharing.after .pass }))

theorem passedAll_perm {vs ws : List VectorId} (perm : vs.Perm ws) (h : Heap) :
    h.passedAll vs = h.passedAll ws :=
  perm.foldl_eq' (fun v _ w _ g => passed_comm g v w) h

theorem passedAll_rest (h : Heap) (vs : List VectorId) :
    h.passedAll vs = { h with vectors := (h.passedAll vs).vectors } := by
  induction vs generalizing h with
  | nil => rfl
  | cons v vs ih => exact ih (h.passed v)

theorem find_passedAll (h : Heap) (vs : List VectorId) (v : VectorId) :
    (h.passedAll vs).vectors.find? v = (h.vectors.find? v).map (fun cell =>
      { cell with sharing := cell.sharing.advanced (vs.count v) }) := by
  induction vs generalizing h with
  | nil => simp [passedAll, SharingState.advanced_zero]
  | cons w vs ih =>
    change ((h.passed w).passedAll vs).vectors.find? v = _
    rw [ih]
    by_cases same : w = v
    · subst same
      rw [passed, modifyVector, Store.find_modify_self, Option.map_map, List.count_cons_self]
      exact congrArg (Option.map · _)
        (funext fun cell => by simp only [Function.comp_apply, SharingState.advanced_after])
    · rw [passed, modifyVector, Store.find_modify_ne _ _ same, List.count_cons_of_ne same]

end Heap

/-- The argument stands for the vector, and it is no constant. -/
def Argument.targets (a : Argument) (v : VectorId) : Bool :=
  !a.constant && a.value.sharingTarget? == some v

namespace Op

variable {h : Heap} {a : Argument} {as : List Argument}

theorem count_passedTargets (as : List Argument) (v : VectorId) :
    (passedTargets as).count v = as.countP (Argument.targets · v) := by
  induction as with
  | nil => rfl
  | cons a as ih =>
    rw [passedTargets, List.filterMap_cons, List.countP_cons, ← ih, Argument.targets]
    cases a.constant with
    | true => simp [passedTargets]
    | false =>
      cases a.value.sharingTarget? with
      | none => simp [passedTargets]
      | some w => simp [passedTargets, List.count_cons]

theorem passArgument_step (there : ∀ v ∈ passedTargets [a], h.has (.vector v) = true) :
    ∃ state, passArgument a h = .ok state (h.passedAll (passedTargets [a])) := by
  unfold passArgument
  by_cases constant : a.constant = true
  · rw [if_pos constant]
    exact ⟨none, by simp [passedTargets, constant, Heap.passedAll, pure_run]⟩
  · rw [if_neg constant]
    cases target : a.value.sharingTarget? with
    | none => exact ⟨none, by simp [passedTargets, target, Heap.passedAll, pure_run]⟩
    | some v =>
      have only : passedTargets [a] = [v] := by simp [passedTargets, constant, target]
      obtain ⟨cell, found⟩ := Heap.has_vector_iff.mp (there v (only ▸ List.mem_singleton_self v))
      rw [only]
      exact ⟨_, bind_of_ok (vector_bind found _)⟩

theorem passArguments_step (there : ∀ v ∈ passedTargets as, h.has (.vector v) = true) :
    passArguments as h = .ok () (h.passedAll (passedTargets as)) := by
  induction as generalizing h with
  | nil => rfl
  | cons a as ih =>
    have split : passedTargets (a :: as) = passedTargets [a] ++ passedTargets as :=
      List.filterMap_append (l := [a])
    rw [split] at there ⊢
    obtain ⟨state, run⟩ := passArgument_step (fun v hv => there v (List.mem_append_left _ hv))
    refine (bind_of_ok (discard_run run)).trans ((ih (fun v hv => ?_)).trans ?_)
    · obtain ⟨cell, found⟩ := Heap.has_vector_iff.mp (there v (List.mem_append_right _ hv))
      exact Heap.has_vector_iff.mpr ⟨_, by rw [Heap.find_passedAll, found, Option.map_some]⟩
    · rw [Heap.passedAll, Heap.passedAll, Heap.passedAll, List.foldl_append]

theorem mem_passedTargets {v : VectorId} : v ∈ passedTargets as ↔ ∃ a ∈ as, a.targets v = true := by
  rw [← List.count_pos_iff, count_passedTargets, List.countP_pos_iff]

/-- Passing arguments that stand for live vectors succeeds. Each vector's state is advanced by the number
of arguments that stand for it and are no constants, up to shared, and nothing else changes; in another
order the arguments leave the same heap. -/
theorem arguments_advance_targets (as : List Argument) (h : Heap)
    (there : ∀ a ∈ as, ∀ v, a.value.sharingTarget? = some v → h.has (.vector v) = true) :
    ∃ h', passArguments as h = .ok () h' ∧
      (∀ v, h'.vectors.find? v = (h.vectors.find? v).map (fun cell =>
        { cell with sharing := cell.sharing.advanced (as.countP (·.targets v)) })) ∧
      (∀ v, (∀ a ∈ as, a.targets v = false) → h'.vectors.find? v = h.vectors.find? v) ∧
      h' = { h with vectors := h'.vectors } ∧
      ∀ bs, as.Perm bs → passArguments bs h = .ok () h' := by
  have live : ∀ v ∈ passedTargets as, h.has (.vector v) = true := by
    intro v hv
    obtain ⟨a, ha, stands⟩ := mem_passedTargets.mp hv
    rw [Argument.targets, Bool.and_eq_true, beq_iff_eq] at stands
    exact there a ha v stands.2
  have moved := fun v => Heap.find_passedAll h (passedTargets as) v
  refine ⟨h.passedAll (passedTargets as), passArguments_step live, fun v => ?_, fun v missed => ?_,
    h.passedAll_rest _, fun bs perm => ?_⟩
  · rw [moved, count_passedTargets]
  · have none : as.countP (·.targets v) = 0 :=
      List.countP_eq_zero.mpr (fun a ha => by rw [missed a ha]; exact Bool.false_ne_true)
    rw [moved, count_passedTargets, none]
    simp [SharingState.advanced_zero]
  · have same : (passedTargets as).Perm (passedTargets bs) := perm.filterMap _
    rw [Heap.passedAll_perm same]
    exact passArguments_step (fun v hv => live v (same.mem_iff.mpr hv))

/-- Codes that are reached on their own, as a factor's and as a constant, beside levels and columns. -/
theorem arguments_advance_codes :
    ∃ h h' : Heap,
      passArguments [⟨.factor ⟨0⟩ ⟨1⟩, false⟩, ⟨.dataFrame ⟨2⟩, false⟩, ⟨.vector ⟨0⟩, false⟩,
        ⟨.vector ⟨1⟩, true⟩, ⟨.null, false⟩] h = .ok () h' ∧
      h.vectors.ids.map (fun v => (h.vectors.find? v).map (·.sharing)) =
        [some .temporary, some .temporary, some .owned] ∧
      h.vectors.ids.map (fun v => (h'.vectors.find? v).map (·.sharing)) =
        [some .shared, some .temporary, some .shared] := by
  let h : Heap := Op.after (do
    let c ← addContext (.ofConfig .default)
    let codes ← newVector c (.ofValues .int [1, 2])
    let _ ← newVector c (.ofStrings [])
    let columns ← newVector c (.ofVectors [codes])
    markBound columns) {}
  obtain ⟨h', run, moved, _⟩ := arguments_advance_targets [⟨.factor ⟨0⟩ ⟨1⟩, false⟩,
    ⟨.dataFrame ⟨2⟩, false⟩, ⟨.vector ⟨0⟩, false⟩, ⟨.vector ⟨1⟩, true⟩, ⟨.null, false⟩] h (by decide +kernel)
  refine ⟨h, h', run, by decide +kernel, ?_⟩
  simp only [moved]
  decide +kernel

end Op
end VectorHeap
