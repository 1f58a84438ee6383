import VectorHeap.Element
import VectorHeap.Fault

/-! Managed buffers: slots of one element type, as many as the vector's capacity. -/
namespace VectorHeap

structure Buffer where
  type : ElemType
  slots : List Elem
  typed : ∀ e ∈ slots, e.type = type

namespace Buffer

def empty (type : ElemType) : Buffer := ⟨type, [], by simp⟩

/-- None when an element is of another type. -/
def ofList? (type : ElemType) (es : List Elem) : Option Buffer :=
  if h : ∀ e ∈ es, e.type = type then some ⟨type, es, h⟩ else none

def ofValues (t : InlineType) (vs : List t.Value) : Buffer where
  type := t.elemType
  slots := vs.map (Elem.ofValue t)
  typed := by
    intro e h
    obtain ⟨v, _, rfl⟩ := List.mem_map.mp h
    exact Elem.type_ofValue t v

def ofStrings (ids : List StringId) : Buffer := ⟨.str, ids.map .str, by simp [Elem.type]⟩

def ofVectors (ids : List VectorId) : Buffer := ⟨.list, ids.map .list, by simp [Elem.type]⟩

def capacity (b : Buffer) : Nat := b.slots.length

def get? (b : Buffer) (i : Nat) : Option Elem := b.slots[i]?

/-- No managed buffer holds more bytes than this. -/
def maxBytes : Nat := 0x7FFFFFFFFFFFFFFF

def set (b : Buffer) (i : Nat) (e : Elem) (h : e.type = b.type) : Buffer where
  type := b.type
  slots := b.slots.set i e
  typed := fun x hx => (List.mem_or_eq_of_mem_set hx).elim (b.typed x) (fun he => he ▸ h)

/-- None when the element is of another type, whatever the index. -/
def store? (b : Buffer) (i : Nat) (e : Elem) : Except Panic (Option Buffer) :=
  if h : e.type = b.type then
    if i < b.capacity then .ok (some (b.set i e h)) else .error (.indexPastEnd b.capacity i)
  else .ok none

def take (b : Buffer) (n : Nat) : Buffer :=
  ⟨b.type, b.slots.take n, fun e h => b.typed e (List.mem_of_mem_take h)⟩

def take? (b : Buffer) (n : Nat) : Except Panic Buffer :=
  if n ≤ b.capacity then .ok (b.take n) else .error (.rangePastEnd n b.capacity)

def complete? (b : Buffer) (isNA : Elem → Bool) (n : Nat) : Except Panic Bool :=
  if b.type = .raw ∨ b.type = .list then .ok true
  else do
    let used ← b.take? n
    return !used.slots.any isNA

def checkGrowth (b : Buffer) (n : Nat) : Except Panic Unit :=
  if b.capacity < n ∧ maxBytes < n * b.type.managedWidth then .error .capacityOverflow else .ok ()

/-- The first n slots with fillers behind them. None when a filler is of another type. -/
def refill? (b : Buffer) (n : Nat) (fillers : List Elem) : Option Buffer :=
  ofList? b.type (b.slots.take n ++ fillers)

theorem refill_of_typed (b : Buffer) (n : Nat) (fillers : List Elem)
    (h : ∀ e ∈ fillers, e.type = b.type) :
    (b.refill? n fillers).map (·.slots) = some (b.slots.take n ++ fillers) := by
  have all : ∀ e ∈ b.slots.take n ++ fillers, e.type = b.type := fun e m =>
    (List.mem_append.mp m).elim (fun m => b.typed e (List.mem_of_mem_take m)) (h e)
  simp only [refill?, ofList?, dif_pos all, Option.map_some]

end Buffer
end VectorHeap
