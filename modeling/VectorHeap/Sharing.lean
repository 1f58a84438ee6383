/-! Sharing states for copy-on-modify values.
A vector starts temporary, is owned once something binds it and shared once a second binding may see
it. The state moves forward only; a shared vector is written by copying it first. -/
namespace VectorHeap

inductive SharingState
  | temporary | owned | shared
deriving DecidableEq, Inhabited

inductive SharingTrigger
  | assign | pass
deriving DecidableEq, Inhabited

namespace SharingState

def name : SharingState → String
  | temporary => "temporary"
  | owned => "owned"
  | shared => "shared"

def rank : SharingState → Nat
  | temporary => 0
  | owned => 1
  | shared => 2

/-- Every code above one reads as shared. -/
def ofRank : Nat → SharingState
  | 0 => temporary
  | 1 => owned
  | _ => shared

instance : LE SharingState := ⟨fun a b => a.rank ≤ b.rank⟩

instance (a b : SharingState) : Decidable (a ≤ b) := inferInstanceAs (Decidable (a.rank ≤ b.rank))

/-- Both triggers take one step towards shared. -/
def after : SharingState → SharingTrigger → SharingState
  | temporary, _ => owned
  | owned, _ => shared
  | shared, _ => shared

/-- Leaves temporary, and changes no other state. -/
def markBound : SharingState → SharingState
  | temporary => owned
  | s => s

def isTemporary (s : SharingState) : Bool := s == temporary

def isShared (s : SharingState) : Bool := s == shared

def allowsInPlaceWrite (s : SharingState) : Bool := !s.isShared

theorem le_refl (s : SharingState) : s ≤ s := Nat.le_refl s.rank

theorem le_trans {s t u : SharingState} (first : s ≤ t) (second : t ≤ u) : s ≤ u :=
  Nat.le_trans (m := t.rank) first second

theorem le_after (s : SharingState) (t : SharingTrigger) : s ≤ s.after t := by
  cases s <;> cases t <;> decide

theorem le_markBound (s : SharingState) : s ≤ s.markBound := by cases s <;> decide

theorem le_shared (s : SharingState) : s ≤ shared := by cases s <;> decide

theorem eq_shared {s : SharingState} (more : shared ≤ s) : s = shared := by
  cases s
  · exact absurd more (by decide)
  · exact absurd more (by decide)
  · rfl

theorem rank_after (s : SharingState) (t : SharingTrigger) :
    (s.after t).rank = min (s.rank + 1) 2 := by cases s <;> cases t <;> rfl

end SharingState
end VectorHeap
