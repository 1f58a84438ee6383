/-! Finite tables in order of first insertion.
Each key occurs once. Replacing a value keeps its place, and the entries behind a removed one close
up. Everything else about a table follows from how find? reads it and from the order of its keys. -/
namespace VectorHeap

namespace Assoc

variable {κ α : Type} [DecidableEq κ]

def find? : List (κ × α) → κ → Option α
  | [], _ => none
  | (k', v) :: rest, k => if k' = k then some v else find? rest k

def insert : List (κ × α) → κ → α → List (κ × α)
  | [], k, v => [(k, v)]
  | (k', v') :: rest, k, v => if k' = k then (k, v) :: rest else (k', v') :: insert rest k v

def erase : List (κ × α) → κ → List (κ × α)
  | [], _ => []
  | (k', v) :: rest, k => if k' = k then rest else (k', v) :: erase rest k

def modify : List (κ × α) → κ → (α → α) → List (κ × α)
  | [], _, _ => []
  | (k', v) :: rest, k, f => if k' = k then (k', f v) :: rest else (k', v) :: modify rest k f

theorem mem_keys_insert (es : List (κ × α)) (k k' : κ) (v : α) :
    k' ∈ (insert es k v).map Prod.fst ↔ k' = k ∨ k' ∈ es.map Prod.fst := by
  induction es with
  | nil => simp [insert]
  | cons e rest ih =>
    by_cases h : e.1 = k
    · simp [insert, h]
    · simp only [insert, h, if_false, List.map_cons, List.mem_cons, ih]
      constructor <;> rintro (h | h | h) <;> simp [h]

theorem mem_keys_erase (es : List (κ × α)) (k k' : κ) (h : k' ∈ (erase es k).map Prod.fst) :
    k' ∈ es.map Prod.fst := by
  induction es with
  | nil => simp [erase] at h
  | cons e rest ih =>
    by_cases hk : e.1 = k
    · simp only [erase, hk, if_true] at h
      exact List.mem_cons_of_mem _ h
    · simp only [erase, hk, if_false, List.map_cons, List.mem_cons] at h ⊢
      exact h.imp id ih

theorem keys_modify (es : List (κ × α)) (k : κ) (f : α → α) :
    (modify es k f).map Prod.fst = es.map Prod.fst := by
  induction es with
  | nil => rfl
  | cons e rest ih => by_cases h : e.1 = k <;> simp [modify, h, ih]

theorem nodup_insert (es : List (κ × α)) (k : κ) (v : α) (h : (es.map Prod.fst).Nodup) :
    ((insert es k v).map Prod.fst).Nodup := by
  induction es with
  | nil => simp [insert]
  | cons e rest ih =>
    obtain ⟨fresh, tail⟩ := List.nodup_cons.mp h
    by_cases hk : e.1 = k
    · simpa [insert, hk] using h
    · simp only [insert, hk, if_false, List.map_cons, List.nodup_cons]
      refine ⟨?_, ih tail⟩
      rw [mem_keys_insert]
      exact fun m => m.elim hk fresh

theorem nodup_erase (es : List (κ × α)) (k : κ) (h : (es.map Prod.fst).Nodup) :
    ((erase es k).map Prod.fst).Nodup := by
  induction es with
  | nil => simp [erase]
  | cons e rest ih =>
    obtain ⟨fresh, tail⟩ := List.nodup_cons.mp h
    by_cases hk : e.1 = k
    · simpa [erase, hk] using tail
    · simp only [erase, hk, if_false, List.map_cons, List.nodup_cons]
      exact ⟨fun m => fresh (mem_keys_erase rest k e.1 m), ih tail⟩

theorem find_insert (es : List (κ × α)) (k k' : κ) (v : α) :
    find? (insert es k v) k' = if k = k' then some v else find? es k' := by
  induction es with
  | nil => simp [insert, find?]
  | cons e rest ih =>
    by_cases h : e.1 = k
    · subst h
      by_cases h' : e.1 = k' <;> simp [insert, find?, h']
    · by_cases h' : e.1 = k'
      · subst h'
        simp [insert, find?, h, Ne.symm h]
      · simp [insert, find?, h, h', ih]

theorem find_modify (es : List (κ × α)) (k k' : κ) (f : α → α) :
    find? (modify es k f) k' = if k = k' then (find? es k').map f else find? es k' := by
  induction es with
  | nil => simp [modify, find?]
  | cons e rest ih =>
    by_cases h : e.1 = k
    · subst h
      by_cases h' : e.1 = k' <;> simp [modify, find?, h']
    · by_cases h' : e.1 = k'
      · subst h'
        simp [modify, find?, h, Ne.symm h]
      · simp [modify, find?, h, h', ih]

theorem find_eq_none_iff (es : List (κ × α)) (k : κ) :
    find? es k = none ↔ k ∉ es.map Prod.fst := by
  induction es with
  | nil => simp [find?]
  | cons e rest ih =>
    by_cases h : e.1 = k
    · simp [find?, h]
    · simp [find?, h, Ne.symm h, ih]

theorem find_erase (es : List (κ × α)) (k k' : κ) (nodup : (es.map Prod.fst).Nodup) :
    find? (erase es k) k' = if k = k' then none else find? es k' := by
  induction es with
  | nil => simp [erase, find?]
  | cons e rest ih =>
    obtain ⟨fresh, tail⟩ := List.nodup_cons.mp nodup
    by_cases h : e.1 = k
    · subst h
      by_cases h' : e.1 = k'
      · subst h'
        simpa [erase] using (find_eq_none_iff rest e.1).mpr fresh
      · simp [erase, find?, h']
    · by_cases h' : e.1 = k'
      · subst h'
        simp [erase, find?, h, Ne.symm h]
      · simp [erase, find?, h, h', ih tail]

theorem mem_of_find (es : List (κ × α)) (k : κ) (v : α) (h : find? es k = some v) :
    (k, v) ∈ es := by
  induction es with
  | nil => simp [find?] at h
  | cons e rest ih =>
    by_cases hk : e.1 = k
    · subst hk
      simp only [find?, if_true, Option.some.injEq] at h
      simp [← h]
    · simp only [find?, hk, if_false] at h
      exact List.mem_cons_of_mem _ (ih h)

theorem find_of_mem (es : List (κ × α)) (k : κ) (v : α) (nodup : (es.map Prod.fst).Nodup)
    (h : (k, v) ∈ es) : find? es k = some v := by
  induction es with
  | nil => simp at h
  | cons e rest ih =>
    obtain ⟨fresh, tail⟩ := List.nodup_cons.mp nodup
    rcases List.mem_cons.mp h with h | h
    · simp [find?, ← h]
    · have hk : e.1 ≠ k := fun hk => fresh (hk ▸ List.mem_map_of_mem h)
      simpa [find?, hk] using ih tail h

theorem insert_fresh (es : List (κ × α)) (k : κ) (v : α) (h : find? es k = none) :
    insert es k v = es ++ [(k, v)] := by
  induction es with
  | nil => rfl
  | cons e rest ih =>
    by_cases hk : e.1 = k
    · simp [find?, hk] at h
    · simp only [find?, hk, if_false] at h
      simp [insert, hk, ih h]

theorem modify_insert (es : List (κ × α)) (k : κ) (v : α) (f : α → α) :
    modify (insert es k v) k f = insert es k (f v) := by
  induction es with
  | nil => simp [insert, modify]
  | cons e rest ih => by_cases hk : e.1 = k <;> simp [insert, modify, hk, ih]

theorem modify_congr (es : List (κ × α)) (k : κ) {f g : α → α}
    (same : ∀ a, find? es k = some a → f a = g a) : modify es k f = modify es k g := by
  induction es with
  | nil => rfl
  | cons e rest ih =>
    by_cases hk : e.1 = k
    · simp [modify, hk, same e.2 (by simp [find?, hk])]
    · simp [modify, hk, ih (fun a found => same a (by simpa [find?, hk] using found))]

theorem modify_modify (es : List (κ × α)) (k : κ) (f g : α → α) :
    modify (modify es k f) k g = modify es k (fun a => g (f a)) := by
  induction es with
  | nil => rfl
  | cons e rest ih => by_cases hk : e.1 = k <;> simp [modify, hk, ih]

theorem modify_comm (es : List (κ × α)) {k k' : κ} (ne : k ≠ k') (f g : α → α) :
    modify (modify es k f) k' g = modify (modify es k' g) k f := by
  induction es with
  | nil => rfl
  | cons e rest ih =>
    by_cases hk : e.1 = k
    · simp [modify, hk, ne]
    · by_cases hk' : e.1 = k' <;> simp [modify, hk, hk', ne.symm, ih]

theorem perm_erase (es : List (κ × α)) (k : κ) (v : α) (h : find? es k = some v) :
    es.Perm ((k, v) :: erase es k) := by
  induction es with
  | nil => simp [find?] at h
  | cons e rest ih =>
    by_cases hk : e.1 = k
    · subst hk
      simp only [find?, if_true, Option.some.injEq] at h
      simp [erase, ← h]
    · simp only [find?, hk, if_false] at h
      simp only [erase, hk, if_false]
      exact ((ih h).cons e).trans (.swap _ _ _)

end Assoc

structure Table (κ α : Type) [DecidableEq κ] where
  entries : List (κ × α)
  nodup : (entries.map Prod.fst).Nodup

namespace Table

variable {κ α : Type} [DecidableEq κ]

def empty : Table κ α := ⟨[], .nil⟩

instance : Inhabited (Table κ α) := ⟨empty⟩

def keys (t : Table κ α) : List κ := t.entries.map Prod.fst

def values (t : Table κ α) : List α := t.entries.map Prod.snd

def size (t : Table κ α) : Nat := t.entries.length

def isEmpty (t : Table κ α) : Bool := t.entries.isEmpty

def find? (t : Table κ α) (k : κ) : Option α := Assoc.find? t.entries k

def contains (t : Table κ α) (k : κ) : Bool := (t.find? k).isSome

def insert (t : Table κ α) (k : κ) (v : α) : Table κ α :=
  ⟨Assoc.insert t.entries k v, Assoc.nodup_insert t.entries k v t.nodup⟩

def erase (t : Table κ α) (k : κ) : Table κ α :=
  ⟨Assoc.erase t.entries k, Assoc.nodup_erase t.entries k t.nodup⟩

def modify (t : Table κ α) (k : κ) (f : α → α) : Table κ α :=
  ⟨Assoc.modify t.entries k f, by rw [Assoc.keys_modify]; exact t.nodup⟩

@[simp] theorem find_empty (k : κ) : (empty : Table κ α).find? k = none := rfl

theorem find_insert (t : Table κ α) (k k' : κ) (v : α) :
    (t.insert k v).find? k' = if k = k' then some v else t.find? k' :=
  Assoc.find_insert t.entries k k' v

theorem find_modify (t : Table κ α) (k k' : κ) (f : α → α) :
    (t.modify k f).find? k' = if k = k' then (t.find? k').map f else t.find? k' :=
  Assoc.find_modify t.entries k k' f

theorem find_eq_none_iff (t : Table κ α) (k : κ) : t.find? k = none ↔ k ∉ t.keys :=
  Assoc.find_eq_none_iff t.entries k

theorem find_erase (t : Table κ α) (k k' : κ) :
    (t.erase k).find? k' = if k = k' then none else t.find? k' :=
  Assoc.find_erase t.entries k k' t.nodup

theorem mem_entries_iff (t : Table κ α) (k : κ) (v : α) :
    (k, v) ∈ t.entries ↔ t.find? k = some v :=
  ⟨Assoc.find_of_mem t.entries k v t.nodup, Assoc.mem_of_find t.entries k v⟩

theorem mem_values_iff (t : Table κ α) (v : α) : v ∈ t.values ↔ ∃ k, t.find? k = some v := by
  simp only [values, List.mem_map, Prod.exists, exists_eq_right, mem_entries_iff]

theorem mem_keys_iff (t : Table κ α) (k : κ) : k ∈ t.keys ↔ ∃ v, t.find? k = some v := by
  simp only [keys, List.mem_map, Prod.exists, exists_and_right, exists_eq_right, mem_entries_iff]

end Table
end VectorHeap
