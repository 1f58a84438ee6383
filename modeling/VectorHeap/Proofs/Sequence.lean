import VectorHeap.Heap.Basic

/-! Sequences: what vectors are to their users, and what operations do to them. -/
namespace VectorHeap

structure Sequence where
  type : ElemType
  slots : List Elem
  length : Nat
  complete : Bool
  sharing : SharingState
deriving DecidableEq

namespace Sequence

def capacity (s : Sequence) : Nat := s.slots.length

def elements (s : Sequence) : List Elem := s.slots.take s.length

theorem getElem?_elements (s : Sequence) (i : Nat) :
    s.elements[i]? = if i < s.length then s.slots[i]? else none := List.getElem?_take

def noting (s : Sequence) (missing : Bool) : Sequence :=
  { s with complete := s.complete && !missing }

def store (s : Sequence) (i : Nat) (e : Elem) (missing : Bool) : Sequence :=
  { s with slots := s.slots.set i e, complete := s.complete && !missing }

theorem mem_store {s : Sequence} {i : Nat} {e e' : Elem} {missing : Bool}
    (mem : e' ∈ (s.store i e missing).elements) : e' ∈ s.elements ∨ e' = e := by
  rw [elements, store, List.take_set] at mem
  exact List.mem_or_eq_of_mem_set mem

/-- The type is checked first, then that the sequence is not shared, then the index. -/
def set (s : Sequence) (i : Nat) (e : Elem) (missing : Bool) : Except Fault Sequence :=
  if e.type ≠ s.type then .error (.error (.representationMismatch s.type e.type))
  else if s.sharing.isShared then .error (.panic .sharedWrite)
  else if i < s.length then .ok (s.store i e missing)
  else .error (.error (.indexOutOfBounds i s.length))

/-- The length moves within the capacity. Growing leaves the sequence incomplete. -/
def setLength (s : Sequence) (n : Nat) : Except Fault Sequence :=
  if s.capacity < n then .error (.error (.lengthExceedsCapacity n s.capacity))
  else .ok { s with length := n, complete := s.complete && decide (n ≤ s.length) }

def resize (s : Sequence) (n : Nat) (fillers : List Elem) : Sequence :=
  { s with slots := s.slots.take n ++ fillers }

/-- Another number of slots, new ones filled. It does not go below the length. -/
def setCapacity (s : Sequence) (n : Nat) (fillers : List Elem) : Except Fault Sequence :=
  if n < s.length then .error (.error (.capacityBelowLength n s.length))
  else .ok (s.resize n fillers)

/-! ### What is common to all changes -/

/-- How a sequence goes on. Its sharing state does not move back, and it is complete only if it was so
before and nothing that is missing came into use. -/
structure Continues (missing : Elem → Bool) (s s' : Sequence) : Prop where
  forward : s.sharing ≤ s'.sharing
  hint : s'.complete = true →
    s.complete = true ∧ ∀ e ∈ s'.elements, e ∈ s.elements ∨ missing e = false

variable {missing : Elem → Bool} {s : Sequence}

theorem Continues.refl (missing : Elem → Bool) (s : Sequence) : Continues missing s s :=
  ⟨s.sharing.le_refl, fun complete => ⟨complete, fun _ => .inl⟩⟩

theorem Continues.share {state : SharingState} (forward : s.sharing ≤ state) :
    Continues missing s { s with sharing := state } :=
  ⟨forward, fun complete => ⟨complete, fun _ => .inl⟩⟩

theorem Continues.noting (b : Bool) : Continues missing s (s.noting b) :=
  ⟨s.sharing.le_refl, fun complete => ⟨(Bool.and_eq_true _ _ ▸ complete).1, fun _ => .inl⟩⟩

theorem Continues.store (i : Nat) (e : Elem) : Continues missing s (s.store i e (missing e)) := by
  refine ⟨s.sharing.le_refl, fun complete => ?_⟩
  obtain ⟨before, present⟩ := (Bool.and_eq_true _ _).mp complete
  refine ⟨before, fun e' he' => ?_⟩
  rcases mem_store he' with old | rfl
  · exact .inl old
  · exact .inr (Bool.not_eq_true' _ ▸ present)

/-- What comes into use with a new length may be missing, what goes out of use does not matter. -/
theorem Continues.window (n : Nat) : Continues missing s
    { s with length := n, complete := s.complete && decide (n ≤ s.length) } := by
  refine ⟨s.sharing.le_refl, fun complete => ?_⟩
  obtain ⟨before, shorter⟩ := (Bool.and_eq_true _ _).mp complete
  refine ⟨before, fun e he => .inl ?_⟩
  exact List.take_subset_take_left _ (of_decide_eq_true shorter) he

theorem Continues.resize {n : Nat} (low : s.length ≤ n) (window : s.length ≤ s.capacity)
    (fillers : List Elem) : Continues missing s (s.resize n fillers) := by
  refine ⟨s.sharing.le_refl, fun complete => ⟨complete, fun e he => .inl ?_⟩⟩
  have count : s.length ≤ (s.slots.take n).length := by
    rw [List.length_take]
    exact Nat.le_min.mpr ⟨low, window⟩
  have same : (s.resize n fillers).elements = s.elements := by
    rw [elements, elements, Sequence.resize, List.take_append_of_le_length count, List.take_take,
      Nat.min_eq_left low]
  exact same ▸ he

end Sequence

/-- What users ask of one vector. -/
inductive Access
  | get (i : Nat)
  | toList
  | length
  | capacity
  | isComplete
  | set (i : Nat) (e : Elem)
  | setLength (n : Nat)
  | setCapacity (n : Nat)
  | share (t : SharingTrigger)
  | ensureHandle
  | promote

/-- What a vector answers. A handle is not part of it. -/
inductive Answer
  | done
  | elem (e : Elem)
  | elems (es : List Elem)
  | count (n : Nat)
  | flag (b : Bool)
  | sharing (state : SharingState)
deriving DecidableEq

namespace Sequence

def change (s : Sequence) : Except Fault Sequence → Except Fault Answer × Sequence
  | .ok s' => (.ok .done, s')
  | .error f => (.error f, s)

/-- What a sequence answers and which sequence it is then. Handles and promotion are nothing to it. -/
def answer (missing : Elem → Bool) (fillers : List Elem) (s : Sequence) :
    Access → Except Fault Answer × Sequence
  | .get i =>
    match s.elements[i]? with
    | some e => (.ok (.elem e), s)
    | none => (.error (.error (.indexOutOfBounds i s.length)), s)
  | .toList => (.ok (.elems s.elements), s)
  | .length => (.ok (.count s.length), s)
  | .capacity => (.ok (.count s.capacity), s)
  | .isComplete => (.ok (.flag s.complete), s)
  | .set i e => s.change (s.set i e (missing e))
  | .setLength n => s.change (s.setLength n)
  | .setCapacity n => s.change (s.setCapacity n fillers)
  | .share t => (.ok (.sharing (s.sharing.after t)), { s with sharing := s.sharing.after t })
  | .ensureHandle | .promote => (.ok .done, s)

/-- How many new slots an access makes. -/
def growth (s : Sequence) : Access → Nat
  | .setCapacity n => n - s.capacity
  | _ => 0

end Sequence
end VectorHeap
