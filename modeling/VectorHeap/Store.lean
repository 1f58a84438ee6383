import VectorHeap.Table

/-! Stores of identified objects.
Identities are never used again, so one that no longer finds its object names a dead one for ever. -/
namespace VectorHeap

inductive Kind
  | context | vector | string | peer | frame | buffer
deriving DecidableEq

structure Id (k : Kind) where
  index : Nat
deriving DecidableEq, Inhabited

abbrev ContextId := Id .context
abbrev VectorId := Id .vector
abbrev StringId := Id .string
abbrev PeerId := Id .peer
abbrev FrameId := Id .frame
abbrev BufferId := Id .buffer

structure Store (k : Kind) (α : Type) where
  next : Nat
  table : Table (Id k) α
  below : ∀ i ∈ table.keys, i.index < next

namespace Store

variable {k : Kind} {α : Type}

def empty : Store k α := ⟨0, .empty, by simp [Table.keys, Table.empty]⟩

instance : Inhabited (Store k α) := ⟨empty⟩

def ids (s : Store k α) : List (Id k) := s.table.keys

def values (s : Store k α) : List α := s.table.values

def find? (s : Store k α) (i : Id k) : Option α := s.table.find? i

def contains (s : Store k α) (i : Id k) : Bool := s.table.contains i

def fresh (s : Store k α) : Id k := ⟨s.next⟩

def add (s : Store k α) (a : α) : Store k α where
  next := s.next + 1
  table := s.table.insert s.fresh a
  below := by
    intro i hi
    rcases (Assoc.mem_keys_insert s.table.entries s.fresh i a).mp hi with h | h
    · subst h
      exact Nat.lt_succ_self s.next
    · exact Nat.lt_succ_of_lt (s.below i h)

def modify (s : Store k α) (i : Id k) (f : α → α) : Store k α where
  next := s.next
  table := s.table.modify i f
  below := by
    intro j hj
    rw [Table.keys, Table.modify, Assoc.keys_modify] at hj
    exact s.below j hj

def erase (s : Store k α) (i : Id k) : Store k α where
  next := s.next
  table := s.table.erase i
  below := fun j hj => s.below j (Assoc.mem_keys_erase s.table.entries i j hj)

@[simp] theorem find_empty (i : Id k) : (empty : Store k α).find? i = none := rfl

theorem find_add (s : Store k α) (a : α) (i : Id k) :
    (s.add a).find? i = if s.fresh = i then some a else s.find? i :=
  Table.find_insert s.table s.fresh i a

theorem find_modify (s : Store k α) (i j : Id k) (f : α → α) :
    (s.modify i f).find? j = if i = j then (s.find? j).map f else s.find? j :=
  Table.find_modify s.table i j f

theorem find_erase (s : Store k α) (i j : Id k) :
    (s.erase i).find? j = if i = j then none else s.find? j :=
  Table.find_erase s.table i j

theorem find_fresh (s : Store k α) : s.find? s.fresh = none := by
  rw [find?, Table.find_eq_none_iff]
  exact fun h => Nat.lt_irrefl _ (s.below _ h)

theorem find_modify_self (s : Store k α) (i : Id k) (f : α → α) :
    (s.modify i f).find? i = (s.find? i).map f := by rw [find_modify, if_pos rfl]

theorem find_modify_ne (s : Store k α) {i j : Id k} (f : α → α) (ne : i ≠ j) :
    (s.modify i f).find? j = s.find? j := by rw [find_modify, if_neg ne]

theorem map_find_modify {β : Type} (s : Store k α) (i j : Id k) (f : α → α) (key : α → β)
    (same : ∀ a, s.find? i = some a → key (f a) = key a) :
    ((s.modify i f).find? j).map key = (s.find? j).map key := by
  by_cases h : i = j
  · subst h
    rw [find_modify_self, Option.map_map]
    cases hi : s.find? i with
    | none => rfl
    | some a => exact congrArg some (same a hi)
  · rw [find_modify_ne s f h]

theorem find_add_fresh (s : Store k α) (a : α) : (s.add a).find? s.fresh = some a := by
  rw [find_add, if_pos rfl]

theorem modify_add (s : Store k α) (a : α) (f : α → α) :
    (s.add a).modify s.fresh f = s.add (f a) := by
  simp only [add, modify, Table.insert, Table.modify, Assoc.modify_insert]

theorem modify_modify (s : Store k α) (i : Id k) (f g : α → α) :
    (s.modify i f).modify i g = s.modify i (fun a => g (f a)) := by
  simp only [modify, Table.modify, Assoc.modify_modify]

theorem modify_comm (s : Store k α) {i j : Id k} (ne : i ≠ j) (f g : α → α) :
    (s.modify i f).modify j g = (s.modify j g).modify i f := by
  simp only [modify, Table.modify, Assoc.modify_comm _ ne]

/-- Only what an update makes of the object that is there matters. -/
theorem modify_congr (s : Store k α) (i : Id k) {f g : α → α}
    (same : ∀ a, s.find? i = some a → f a = g a) : s.modify i f = s.modify i g := by
  simp only [modify, Table.modify, Assoc.modify_congr s.table.entries i same]

theorem modify_same (s : Store k α) (i : Id k) {f : α → α}
    (same : ∀ a, s.find? i = some a → f a = a) : s.modify i f = s := by
  have all : ∀ es : List (Id k × α), Assoc.modify es i (fun a => a) = es := by
    intro es
    induction es with
    | nil => rfl
    | cons e es ih =>
      rw [Assoc.modify]
      split
      · rfl
      · rw [ih]
  rw [s.modify_congr i (g := fun a => a) same]
  simp only [modify, Table.modify, all]

theorem find_add_of_find {s : Store k α} {i : Id k} {b : α} (a : α) (found : s.find? i = some b) :
    (s.add a).find? i = some b := by
  have old : s.fresh ≠ i := fun e => by
    rw [← e, find_fresh] at found
    exact absurd found (by simp)
  rw [find_add, if_neg old, found]

theorem eq_or_find_of_find_add {s : Store k α} {i : Id k} {a b : α}
    (found : (s.add a).find? i = some b) : (i = s.fresh ∧ b = a) ∨ s.find? i = some b := by
  rw [find_add] at found
  split at found
  · rename_i e
    exact .inl ⟨e.symm, (Option.some.inj found).symm⟩
  · exact .inr found

theorem find_of_find_erase {s : Store k α} {i j : Id k} {a : α}
    (found : (s.erase i).find? j = some a) : s.find? j = some a ∧ i ≠ j := by
  rw [find_erase] at found
  split at found
  · exact absurd found (by simp)
  · rename_i other
    exact ⟨found, other⟩

theorem contains_erase_ne (s : Store k α) {i j : Id k} (ne : i ≠ j) :
    (s.erase i).contains j = s.contains j := by
  change ((s.erase i).find? j).isSome = (s.find? j).isSome
  rw [find_erase, if_neg ne]

theorem contains_erase_self (s : Store k α) (i : Id k) : (s.erase i).contains i = false := by
  change ((s.erase i).find? i).isSome = false
  rw [find_erase, if_pos rfl]
  rfl

theorem mem_values_iff (s : Store k α) (a : α) : a ∈ s.values ↔ ∃ i, s.find? i = some a :=
  s.table.mem_values_iff a

theorem mem_ids_iff (s : Store k α) (i : Id k) : i ∈ s.ids ↔ ∃ a, s.find? i = some a :=
  s.table.mem_keys_iff i

theorem contains_iff (s : Store k α) (i : Id k) : s.contains i = true ↔ ∃ a, s.find? i = some a :=
  Option.isSome_iff_exists

theorem lt_next_of_find (s : Store k α) (i : Id k) (a : α) (h : s.find? i = some a) :
    i.index < s.next :=
  s.below i ((s.table.mem_keys_iff i).mpr ⟨a, h⟩)

end Store
end VectorHeap
