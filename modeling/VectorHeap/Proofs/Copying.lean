import VectorHeap.Proofs.Reading
import VectorHeap.Proofs.Construction
import VectorHeap.Vector.Copying

/-! Sharing states and copies. A sharing state is all that its steps change. A copy is a new vector
with the elements in use, and its lists become shared. -/
namespace VectorHeap

namespace Heap

/-- Vectors show what they showed, though some may be shared more. -/
def Shares (h h' : Heap) : Prop :=
  ∀ v s, h.sequence? v = some s →
    ∃ state, s.sharing ≤ state ∧ h.Leaves v { s with sharing := state } h'

theorem Shares.refl (h : Heap) : h.Shares h :=
  fun _ s shows => ⟨s.sharing, s.sharing.le_refl, shows, fun _ => id⟩

theorem Moves.shares {h h' : Heap} (I : h.Intact) (M : h.Moves Nowhere Nowhere h') :
    h.Shares h' :=
  fun _ s shows => ⟨s.sharing, s.sharing.le_refl, M.leaves I shows⟩

theorem Shares.trans {h h' h'' : Heap} (first : h.Shares h') (last : h'.Shares h'') :
    h.Shares h'' := by
  intro v s shows
  obtain ⟨state, more, leaves⟩ := first v s shows
  obtain ⟨state', more', leaves'⟩ := last v _ leaves.1
  exact ⟨state', SharingState.le_trans more more', leaves.after leaves'⟩

end Heap

namespace Op

variable {h : Heap} {v : VectorId} {cell : VectorCell} {B : BufferId → Prop}
  {stops : Fault → Heap → Prop}

/-! ### Sharing states -/

def shareAs (s : Sequence) (f : SharingState → SharingState) : Sequence :=
  { s with sharing := f s.sharing }

theorem setSharing_performs (I : h.Intact) (found : h.vectors.find? v = some cell)
    {f : SharingState → SharingState} (forward : ∀ state, state ≤ f state) :
    Performs (Only v) B (setSharing v f) h
      (fun state h' => state = f cell.sharing ∧
        h.Leaves v (shareAs (h.sequence cell) f) h') stops := by
  have U := Heap.updates_in_place I found (fun cell => { cell with sharing := f cell.sharing })
    (fun _ => rfl) (fun _ => ⟨rfl, rfl, rfl⟩)
  have R : h.Revises (some v) none
      (h.modifyVector v (fun cell => { cell with sharing := f cell.sharing })) :=
    (Heap.Revises.refl h _ _).modifyVector v _ rfl (fun _ => rfl)
  refine .of_ok ?_ (Heap.Change.update v cell _ (show Only v v from rfl) U (R.meters _ _)
    (fun _ _ => rfl) (.share (forward _)) (fun _ b there => (R.foreign v).symm.trans there)).moves
    ⟨rfl, U.sequence, fun b there => (R.foreign v).symm.trans there⟩
  unfold setSharing
  rw [vector_bind found]
  rfl

theorem setSharing_shares (I : h.Intact) (found : h.vectors.find? v = some cell)
    {f : SharingState → SharingState} (forward : ∀ state, state ≤ f state) :
    Performs (Only v) Nowhere (setSharing v f) h (fun _ h' => h.Shares h') stops := by
  refine (setSharing_performs I found forward).mono (fun state h' M ⟨_, leaves⟩ => ?_) (fun _ _ _ => id)
  intro w s shows
  by_cases same : w = v
  · subst same
    obtain ⟨cell', found', rfl⟩ := Heap.sequence_eq_some_iff.mp shows
    cases found.symm.trans found'
    exact ⟨_, forward _, leaves⟩
  · obtain ⟨after, foreign⟩ := M.untouched I same (fun _ _ => id) shows
    exact ⟨s.sharing, s.sharing.le_refl, after, fun b there => foreign ▸ there⟩

theorem markAllShared_performs (I : h.Intact) (es : List Elem)
    (alive : ∀ e ∈ es, ∀ o, e.object? = some o → h.isAlive o = true) :
    Performs (fun w => .list w ∈ es) Nowhere (markAllShared es) h (fun _ h' => h.Shares h')
      stops := by
  induction es generalizing h with
  | nil => exact .pure (.refl h)
  | cons e es ih =>
    obtain ⟨first, rest⟩ := List.forall_mem_cons.mp alive
    cases e with
    | list w =>
      obtain ⟨cell, found⟩ := (Store.contains_iff _ w).mp (first (.vector w) rfl)
      refine ((setSharing_shares I found SharingState.le_shared).discard.widen (fun u hu => ?_)
        (fun _ => id)).bind (fun _ h₁ M shares => ?_)
      · exact hu ▸ List.mem_cons_self ..
      · refine ((ih (M.intact I) (fun e he o ho => M.isAlive I (rest e he o ho))).mono
          (fun _ _ _ last => shares.trans last) (fun _ _ _ => id)).widen
          (fun u hu => List.mem_cons_of_mem _ hu) (fun _ => id)
    | _ => exact (ih I rest).widen (fun u hu => List.mem_cons_of_mem _ hu) (fun _ => id)

/-! ### Copies -/

theorem isComplete_congr {h' : Heap} {b : Buffer} (same : ∀ e ∈ b.slots, h'.isNA e = h.isNA e)
    (length : Nat) : h'.isComplete b length = h.isComplete b length := by
  have all : ∀ es : List Elem, (∀ e ∈ es, h'.isNA e = h.isNA e) →
      es.any h'.isNA = es.any h.isNA := by
    intro es same
    induction es with
    | nil => rfl
    | cons e es ih =>
      obtain ⟨first, rest⟩ := List.forall_mem_cons.mp same
      rw [List.any_cons, List.any_cons, first, ih rest]
  unfold Heap.isComplete
  rw [all _ (fun e he => same e (List.mem_of_mem_take he))]

theorem copy_of_buffer (I : h.Intact) (found : h.vectors.find? v = some cell) {b : Buffer}
    (run : usedBuffer cell h = .ok b h) (sound : SoundBuffer h cell.type b) :
    Performs (fun w => .list w ∈ b.slots) Nowhere (copy v) h
      (fun w h' => Made h h' cell.context w
        ⟨cell.type, b.slots, b.capacity, h.isComplete b b.capacity, .temporary⟩ ∧ h.Shares h')
      stops := by
  have alive : ∀ e ∈ b.slots, ∀ o, e.object? = some o → h.isAlive o = true := fun e he =>
    (sound.2 e he).2
  obtain ⟨ctx, hctx⟩ := I.context_of_vector found
  unfold copy
  refine .after .refl ((vector_bind found _).trans (bind_of_ok run)) ?_
  refine (markAllShared_performs I b.slots alive).bind (fun _ h₁ M shares => ?_)
  have holds : Holds h₁ b := holds_of_alive (fun e he o ho => M.isAlive I (alive e he o ho))
  have add : Performs Nowhere Nowhere (newVector cell.context b) h₁ _ stops :=
    newVector_performs (M.has I (Heap.has_context_iff.mpr ⟨ctx, hctx⟩)) holds
  refine (add.mono (fun w h' last made => ?_) (fun _ _ _ => id)).widen (fun _ => False.elim)
    (fun _ => id)
  rw [isComplete_congr (fun e he => M.isNA I (alive e he)), sound.1] at made
  exact ⟨{ made with new := Moves_not_there I M made.new }, shares.trans (last.shares (M.intact I))⟩

/-- Copying a vector whose handles name its elements copies the elements in use. -/
theorem copy_performs (I : h.Intact) (found : h.vectors.find? v = some cell)
    (readable : h.Readable cell) :
    Performs (fun w => .list w ∈ h.elements cell) Nowhere (copy v) h
      (fun w h' => ∃ b : Buffer, b.type = cell.type ∧
        b.slots = (h.elements cell).take cell.length ∧
        Made h h' cell.context w
          ⟨cell.type, b.slots, cell.length, h.isComplete b cell.length, .temporary⟩) stops := by
  obtain ⟨b, run, type, slots⟩ := usedBuffer_run I found readable
  have F := I.vectors v cell found
  have count : b.capacity = cell.length := by
    rw [Buffer.capacity, slots, List.length_take]
    exact Nat.min_eq_left F.length_le_elements
  have sound : SoundBuffer h cell.type b := ⟨type, fun e he =>
    sound_of_mem I found (List.mem_of_mem_take (slots ▸ he))⟩
  refine ((copy_of_buffer I found run sound).mono (fun w h' _ copied => ?_)
    (fun _ _ _ => id)).widen (fun w hw => List.mem_of_mem_take (slots ▸ hw)) (fun _ => id)
  have made := copied.1
  rw [count] at made
  exact ⟨b, type, slots, made⟩

def ReadLists (h : Heap) (v : VectorId) (w : VectorId) : Prop :=
  ∃ cell b, h.vectors.find? v = some cell ∧ usedBuffer cell h = .ok b h ∧ .list w ∈ b.slots

/-- Whatever its handles name by now, copying a vector stops in no other way than with an error. -/
theorem copy_changes (I : h.Intact) (found : h.vectors.find? v = some cell) :
    Performs (ReadLists h v) Nowhere (copy v) h
      (fun w h' => h.has (.vector w) = false ∧ h'.has (.vector w) = true ∧ h.Shares h')
      (fun f h' => h' = h ∧ ∃ e, f = .error e) := by
  have reads := usedBuffer_reads I found
  cases run : usedBuffer cell h with
  | ok b h₁ =>
    obtain ⟨rfl, sound⟩ := Outcome.ok reads run
    refine ((copy_of_buffer I found run sound).mono (fun w h' _ ⟨made, shares⟩ => ?_)
      (fun _ _ _ => id)).widen (fun w hw => ⟨cell, b, found, run, hw⟩) (fun _ => id)
    obtain ⟨cell', found', _⟩ := Heap.sequence_eq_some_iff.mp made.sequence
    exact ⟨made.new, Heap.has_vector_iff.mpr ⟨cell', found'⟩, shares⟩
  | error f h₁ =>
    obtain ⟨rfl, e, rfl⟩ := Outcome.error reads run
    refine .of_error ?_ .refl ⟨rfl, e, rfl⟩
    unfold copy
    rw [vector_bind found, bind_of_error run]

end Op
end VectorHeap
