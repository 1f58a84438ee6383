import VectorHeap.Heap.Frames
import VectorHeap.Proofs.Copying

/-! Frames. Binding a name changes one frame and nothing else, and passing arguments moves sharing
states and nothing else. -/
namespace VectorHeap

namespace Heap

variable {h h' : Heap}

/-- Other bindings in the frames, all of what is there, and nothing else. -/
structure Rebinds (h h' : Heap) : Prop where
  rest : h' = { h with frames := h'.frames }
  kept : ∀ f, h.frames.contains f = true → h'.frames.contains f = true
  held : ∀ f b name value, h'.frames.find? f = some b → b.find? name = some value →
    ∀ r ∈ value.refs, h.has r = true

theorem Rebinds.has (R : h.Rebinds h') {r : Ref} (alive : h.has r = true) : h'.has r = true := by
  cases r with
  | frame f => exact R.kept f alive
  | _ => rw [R.rest]; exact alive

theorem Rebinds.intact (I : h.Intact) (R : h.Rebinds h') : h'.Intact := by
  have vectors : h'.vectors = h.vectors := by rw [R.rest]
  have strings : h'.strings = h.strings := by rw [R.rest]
  have peers : h'.peers = h.peers := by rw [R.rest]
  have contexts : h'.contexts = h.contexts := by rw [R.rest]
  have buffers : h'.buffers = h.buffers := by rw [R.rest]
  refine
    { vectors := fun v cell found => ?_, strings := fun s cell found => ?_,
      peers := fun p q found => ?_, contexts := fun c ctx found => ?_,
      frames := fun f b name value found bound r hr => R.has (R.held f b name value found bound r hr)
      buffers := fun b foreign found => I.buffers b foreign (buffers ▸ found) }
  · have F := I.vectors v cell (vectors ▸ found)
    exact F.transport ⟨fun r hr => R.has (F.refs r hr), fun _ _ _ hq => peers ▸ hq,
      fun a ha => by rw [sentinelOf?, contexts]; exact ha,
      fun flipped => by rw [isPromoted, contexts]; exact flipped, fun _ _ => by rw [buffers],
      fun _ _ o _ _ _ _ => by rw [R.rest]; cases o <;> rfl⟩
  · have F := I.strings s cell (strings ▸ found)
    exact F.transport (fun r hr => R.has (F.refs r hr)) (Nat.le_of_eq (by rw [contexts]))
      (fun _ _ _ hq => peers ▸ hq)
  · have F := I.peers p q (peers ▸ found)
    refine ⟨fun r hr => R.has (F.refs r hr), F.odd, ?_⟩
    have issued := F.issued
    cases ho : q.owner with
    | vector v => rw [ho] at issued; change v.index < h'.vectors.next; rw [vectors]; exact issued
    | string s => rw [ho] at issued; change s.index < h'.strings.next; rw [strings]; exact issued
  · have F := I.contexts c ctx (contexts ▸ found)
    refine { F with
      refs := fun r hr => R.has (F.refs r hr)
      entry := fun k p q hk hq => F.entry k p q hk (peers ▸ hq)
      queued := fun p q hp hq => ?_
      naString := fun s cell hs hcell => F.naString s cell hs (strings ▸ hcell) }
    have dead := F.queued p q hp (peers ▸ hq)
    rw [R.rest]
    cases ho : q.owner <;> rw [ho] at dead <;> exact dead

theorem Intact.rebinds (I : h.Intact) (f : FrameId) (g : Frame → Frame)
    (held : ∀ b name value, (g b).find? name = some value →
      b.find? name = some value ∨ ∀ r ∈ value.refs, h.has r = true) :
    h.Rebinds (h.modifyFrame f g) where
  rest := rfl
  kept f' there :=
    (isSome_eq_of_map_eq (h.frames.map_find_modify f f' g (fun _ => ()) (fun _ _ => rfl))).trans there
  held f' b' name value found bound := by
    by_cases same : f = f'
    · subst same
      rw [modifyFrame, Store.find_modify_self] at found
      obtain ⟨b, before, rfl⟩ := Option.map_eq_some_iff.mp found
      exact (held b name value bound).elim (I.frames f b name value before) id
    · exact I.frames f' b' name value ((h.frames.find_modify_ne g same).symm.trans found) bound

theorem Intact.rebinds_add (I : h.Intact) {b : Frame}
    (held : ∀ name value, b.find? name = some value → ∀ r ∈ value.refs, h.has r = true) :
    h.Rebinds { h with frames := h.frames.add b } where
  rest := rfl
  kept f there := by
    obtain ⟨b', found⟩ := (h.frames.contains_iff f).mp there
    exact (Store.contains_iff _ f).mpr ⟨b', Store.find_add_of_find b found⟩
  held f b' name value found bound := by
    rcases Store.eq_or_find_of_find_add found with ⟨_, rfl⟩ | old
    · exact held name value bound
    · exact I.frames f b' name value old bound

end Heap

namespace Op

variable {h : Heap} {f : FrameId} {b : Frame} {stops : Fault → Heap → Prop}

open Heap (has_frame_iff)

/-! ### Bindings -/

theorem binding_run (found : h.frames.find? f = some b) (name : String) :
    binding? f name h = .ok (b.find? name) h :=
  frame_bind found _

theorem insertBinding_run (found : h.frames.find? f = some b) (name : String) (value : Value) :
    insertBinding f name value h = .ok (b.find? name) (h.modifyFrame f (·.insert name value)) :=
  bind_of_ok (binding_run found name)

theorem removeBinding_run (found : h.frames.find? f = some b) (name : String) :
    removeBinding f name h = .ok (b.find? name) (h.modifyFrame f (·.erase name)) :=
  bind_of_ok (binding_run found name)

theorem cloneFrame_run (found : h.frames.find? f = some b) :
    cloneFrame f h = .ok h.frames.fresh { h with frames := h.frames.add b } :=
  frame_bind found _

theorem insert_rebinds (I : h.Intact) (f : FrameId) (name : String) {value : Value}
    (alive : ∀ r ∈ value.refs, h.has r = true) :
    h.Rebinds (h.modifyFrame f (·.insert name value)) := by
  refine I.rebinds f _ (fun b name' value' bound => ?_)
  rw [Table.find_insert] at bound
  split at bound
  · cases bound
    exact .inr alive
  · exact .inl bound

theorem erase_rebinds (I : h.Intact) (f : FrameId) (name : String) :
    h.Rebinds (h.modifyFrame f (·.erase name)) := by
  refine I.rebinds f _ (fun b name' value' bound => ?_)
  rw [Table.find_erase] at bound
  split at bound
  · exact absurd bound (by simp)
  · exact .inl bound

/-- The step towards shared that binding a value makes. -/
def bindingStep (previous : Option Value) (value : Value) : Op Unit :=
  match value.vector? with
  | some v => unless previous.any (·.same value) do discard (applyTrigger v .assign)
  | none => pure ()

theorem assign_run (found : h.frames.find? f = some b) (name : String) (value : Value) :
    assign f name value h =
      (bindingStep (b.find? name) value >>= fun _ => insertBinding f name value) h := by
  unfold assign bindingStep
  rw [bind_of_ok (binding_run found name)]
  cases value.vector? with
  | none => rfl
  | some v => cases (b.find? name).any (·.same value) <;> rfl

theorem bindingStep_performs (I : h.Intact) (previous : Option Value) {value : Value}
    (alive : ∀ r ∈ value.refs, h.has r = true) :
    Performs (fun w => value = .vector w ∧ previous ≠ some value) Nowhere
      (bindingStep previous value) h
      (fun _ h' => ∀ v cell, value = .vector v → previous ≠ some value →
        h.vectors.find? v = some cell →
        h.Leaves v (shareAs (h.sequence cell) (·.after .assign)) h') stops := by
  unfold bindingStep
  cases value with
  | vector v =>
    obtain ⟨cell, found⟩ := Heap.has_vector_iff.mp (alive _ (List.mem_singleton_self _))
    by_cases same : previous = some (.vector v)
    · subst same
      have bound : (some (Value.vector v)).any (·.same (.vector v)) = true := by simp [Value.same]
      simp only [Value.vector?, bound, if_true]
      exact .pure (fun _ _ _ other => absurd rfl other)
    · have unbound : previous.any (·.same (.vector v)) = false := by
        cases previous with
        | none => rfl
        | some value' =>
          simp only [Option.any_some, Value.same, beq_eq_false_iff_ne]
          exact fun e => same (congrArg some e)
      simp only [Value.vector?, unbound, Bool.false_eq_true, if_false]
      refine Performs.bind (((setSharing_performs I found (·.le_after .assign)).widen
        (fun w hw => ?_) (fun _ => id))) (fun state h₁ _ o => .pure ?_)
      · cases hw
        exact ⟨rfl, same⟩
      · intro w cell' own _ found'
        cases own
        cases found.symm.trans found'
        exact o.2
  | _ => exact .pure (fun _ _ e => nomatch e)

/-! ### Arguments -/

/-- The vectors whose states passing some arguments moves. -/
def passedTargets (as : List Argument) : List VectorId :=
  as.filterMap (fun a => if a.constant then none else a.value.sharingTarget?)

theorem target_mem_refs {value : Value} {v : VectorId} (target : value.sharingTarget? = some v) :
    .vector v ∈ value.refs := by
  cases value <;> cases target <;> exact List.mem_cons_self

theorem passArgument_performs (I : h.Intact) {a : Argument}
    (alive : ∀ r ∈ a.value.refs, h.has r = true) :
    Performs (fun w => w ∈ passedTargets [a]) Nowhere (passArgument a) h
      (fun _ h' => h.Shares h') stops := by
  unfold passArgument
  by_cases constant : a.constant = true
  · rw [if_pos constant]
    exact .pure (.refl h)
  · rw [if_neg constant]
    cases target : a.value.sharingTarget? with
    | none => exact .pure (.refl h)
    | some v =>
      obtain ⟨cell, found⟩ := Heap.has_vector_iff.mp (alive _ (target_mem_refs target))
      refine Performs.bind (((setSharing_shares I found (·.le_after .pass)).widen
        (fun w hw => ?_) (fun _ => id))) (fun state h₁ _ shares => .pure shares)
      cases hw
      simp [passedTargets, constant, target]

theorem passArguments_performs (I : h.Intact) (as : List Argument)
    (alive : ∀ a ∈ as, ∀ r ∈ a.value.refs, h.has r = true) :
    Performs (fun w => w ∈ passedTargets as) Nowhere (passArguments as) h
      (fun _ h' => h.Shares h') stops := by
  induction as generalizing h with
  | nil => exact .pure (.refl h)
  | cons a as ih =>
    obtain ⟨first, rest⟩ := List.forall_mem_cons.mp alive
    have split : ∀ w, w ∈ passedTargets (a :: as) ↔ w ∈ passedTargets [a] ∨ w ∈ passedTargets as := by
      intro w
      rw [← List.mem_append, passedTargets, passedTargets, passedTargets, ← List.filterMap_append]
      rfl
    refine Performs.bind (((passArgument_performs I first).discard).widen
      (fun w hw => (split w).mpr (.inl hw)) (fun _ => id)) (fun _ h₁ M shares => ?_)
    refine ((ih (M.intact I) (fun a ha r hr => M.has I (rest a ha r hr))).widen
      (fun w hw => (split w).mpr (.inr hw)) (fun _ => id)).mono ?_ (fun _ _ _ => id)
    exact fun _ _ _ last => shares.trans last

end Op
end VectorHeap
