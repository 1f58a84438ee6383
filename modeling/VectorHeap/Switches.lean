import VectorHeap.ElemType

/-! Promotion switches, one per element type.
While no vector of a type has left managed memory its accesses need not look for native contents.
The first promotion flips the switch for good. -/
namespace VectorHeap

structure Switches where
  promoted : List ElemType
deriving DecidableEq, Inhabited

namespace Switches

def initial : Switches := ⟨[]⟩

def isPromoted (s : Switches) (t : ElemType) : Bool := s.promoted.contains t

def flip (s : Switches) (t : ElemType) : Switches :=
  if s.isPromoted t then s else ⟨t :: s.promoted⟩

def display (promoted : Bool) : String := if promoted then "promoted" else "never_promoted"

def positions (s : Switches) : List (ElemType × Bool) :=
  ElemType.all.map (fun t => (t, s.isPromoted t))

theorem isPromoted_flip (s : Switches) (t u : ElemType) :
    (s.flip t).isPromoted u = (decide (u = t) || s.isPromoted u) := by
  unfold flip
  by_cases hu : u = t
  · subst hu
    split <;> simp_all [isPromoted]
  · split <;> simp [isPromoted, hu]

end Switches
end VectorHeap
