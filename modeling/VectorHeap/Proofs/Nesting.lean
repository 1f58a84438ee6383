import VectorHeap.Proofs.Completeness

/-! Lists that hold vectors. A vector of a context reads element by element as long as the context
names its objects, wherever the contents are, and so it can be copied. Only the lists that a copy holds
become shared, not what these hold in turn. -/
namespace VectorHeap

open Op

namespace Heap

variable {h h' : Heap} {c : ContextId} {v : VectorId} {cell : VectorCell} {s : Sequence} {e : Elem}

def Child (h : Heap) (y x : VectorId) : Prop :=
  ∃ s, h.sequence? y = some s ∧ .list x ∈ s.elements

theorem child_iff {y x : VectorId} (shows : h.sequence? y = some s) :
    h.Child y x ↔ .list x ∈ s.elements := by
  constructor
  · rintro ⟨s', same, mem⟩
    cases shows.symm.trans same
    exact mem
  · exact fun mem => ⟨s, shows, mem⟩

def IsShared (h : Heap) (v : VectorId) : Prop :=
  ∃ s, h.sequence? v = some s ∧ s.sharing = .shared

def Resident (h h' : Heap) : Prop :=
  ∀ v, h.isManaged v = true → h'.isManaged v = true

/-- A vector of a context. Native slots look elements up in that context, so what native contents have
in use is of it too. -/
structure Local (h : Heap) (c : ContextId) (v : VectorId) : Prop where
  context : h.contextOf? (.vector v) = some c
  own : h.isManaged v = false → ∀ s, h.sequence? v = some s → h.Own c s.elements

theorem isManaged_eq (h : Heap) (v : VectorId) :
    h.isManaged v = ((h.vectors.find? v).map (·.buffer.isSome)).getD false := by
  cases found : h.vectors.find? v <;> simp [isManaged, found]

theorem isManaged_of_found (found : h.vectors.find? v = some cell) :
    h.isManaged v = cell.buffer.isSome := by
  rw [isManaged_eq, found]
  rfl

theorem isManaged_iff : h.isManaged v = true ↔
    ∃ cell b, h.vectors.find? v = some cell ∧ cell.buffer = some b := by
  constructor
  · intro managed
    cases found : h.vectors.find? v with
    | none =>
      rw [isManaged_eq, found] at managed
      cases managed
    | some cell =>
      rw [isManaged_of_found found] at managed
      obtain ⟨b, hb⟩ := Option.isSome_iff_exists.mp managed
      exact ⟨cell, b, rfl, hb⟩
  · rintro ⟨cell, b, found, hb⟩
    rw [isManaged_of_found found, hb]
    rfl

theorem KeepsCell.isManaged (K : h.KeepsCell v cell h') (found : h.vectors.find? v = some cell) :
    h'.isManaged v = h.isManaged v := by
  obtain ⟨p, found', _⟩ := K
  rw [isManaged_of_found found, isManaged_of_found found']

theorem Shares.isShared (S : h.Shares h') (shared : h.IsShared v) : h'.IsShared v := by
  obtain ⟨s, shows, state⟩ := shared
  obtain ⟨state', more, leaves⟩ := S v s shows
  rw [state] at more
  exact ⟨_, leaves.1, SharingState.eq_shared more⟩

theorem Local.found (L : h.Local c v) : ∃ cell, h.vectors.find? v = some cell ∧ cell.context = c := by
  obtain ⟨cell, found, context⟩ := Option.map_eq_some_iff.mp L.context
  exact ⟨cell, found, context⟩

theorem Local.there (L : h.Local c v) : h.has (.vector v) = true := by
  obtain ⟨cell, found, _⟩ := L.found
  exact has_vector_iff.mpr ⟨cell, found⟩

theorem Local.sequence (L : h.Local c v) : ∃ s, h.sequence? v = some s := by
  obtain ⟨cell, found, _⟩ := L.found
  exact ⟨_, sequence_eq_some_iff.mpr ⟨cell, found, rfl⟩⟩

theorem Local.getElem (L : h.Local c v) (I : h.Intact) (N : h.NamesIn c)
    (shows : h.sequence? v = some s) (i : Nat) : Op.getElem v i h =
      match s.elements[i]? with
      | some e => .ok e h
      | none => .error (.error (.indexOutOfBounds i s.length)) h := by
  obtain ⟨cell, found, rfl⟩ := sequence_eq_some_iff.mp shows
  rw [Sequence.getElem?_elements]
  by_cases lt : i < cell.length
  · rw [if_pos (show i < (h.sequence cell).length from lt)]
    have F := I.vectors v cell found
    have bound : i < (h.sequence cell).slots.length := Nat.lt_of_lt_of_le lt F.length_le_elements
    have slot : (h.sequence cell).slots[i]? = some (h.sequence cell).slots[i] :=
      List.getElem?_eq_getElem bound
    rw [slot]
    cases hb : cell.buffer with
    | some b =>
      obtain ⟨e, slot', run⟩ := getElem_managed I found hb lt
      cases slot.symm.trans slot'
      exact run
    | none =>
      have native : h.isManaged v = false := by rw [isManaged_of_found found, hb]; rfl
      have used : (h.sequence cell).elements[i]? = some (h.sequence cell).slots[i] := by
        rw [Sequence.getElem?_elements, if_pos (show i < (h.sequence cell).length from lt), slot]
      have H : h.HoldsAt v i (h.sequence cell).slots[i] := ⟨_, shows, lt, slot⟩
      refine H.getElem_own I N L.context (fun e he => ?_)
      cases List.mem_singleton.mp he
      exact L.own native _ shows _ (List.mem_of_getElem? used)
  · rw [if_neg (show ¬ i < (h.sequence cell).length from lt)]
    exact getElem_past found lt

/-! ### Copies -/

theorem resident_setSharing (h : Heap) (v : VectorId) (f : SharingState → SharingState) :
    h.Resident (h.modifyVector v (fun cell => { cell with sharing := f cell.sharing })) := by
  intro w managed
  rw [isManaged_eq] at managed ⊢
  exact (congrArg (Option.getD · false)
    (h.vectors.map_find_modify v w (fun cell => { cell with sharing := f cell.sharing })
      (·.buffer.isSome) (fun _ _ => rfl))).trans managed

theorem markAllShared_run (I : h.Intact) (es : List Elem)
    (alive : ∀ e ∈ es, ∀ o, e.object? = some o → h.isAlive o = true) :
    ∃ h₁, markAllShared es h = .ok () h₁ ∧ h.Resident h₁ ∧ ∀ w, .list w ∈ es → h₁.IsShared w := by
  induction es generalizing h with
  | nil => exact ⟨h, rfl, fun _ => id, fun w hw => absurd hw List.not_mem_nil⟩
  | cons e es ih =>
    obtain ⟨first, rest⟩ := List.forall_mem_cons.mp alive
    cases e with
    | list w =>
      obtain ⟨cell, found⟩ := (Store.contains_iff _ w).mp (first (.vector w) rfl)
      have run : setSharing w (fun _ => .shared) h = .ok .shared
          (h.modifyVector w (fun cell => { cell with sharing := .shared })) := vector_bind found _
      have P : Performs _ Nowhere (setSharing w (fun _ => .shared)) h _ (fun _ _ => False) :=
        setSharing_performs I found SharingState.le_shared
      obtain ⟨M, _, leaves⟩ := P.ok run
      have held := fun e he o ho => M.isAlive I (rest e he o ho)
      obtain ⟨h₁, run₁, resident, marked⟩ := ih (M.intact I) held
      have Q : Performs _ _ (markAllShared es) _ _ (fun _ _ => False) :=
        markAllShared_performs (M.intact I) es held
      have shares := (Q.ok run₁).2
      refine ⟨h₁, (bind_of_ok ((map_run _ _ h).trans (by rw [run]))).trans run₁,
        fun u hu => resident u (resident_setSharing h w (fun _ => .shared) u hu), fun u hu => ?_⟩
      rcases List.mem_cons.mp hu with same | hu
      · cases same
        exact shares.isShared ⟨_, leaves.1, rfl⟩
      · exact marked u hu
    | _ =>
      obtain ⟨h₁, run, resident, marked⟩ := ih I rest
      exact ⟨h₁, run, resident, fun w hw => marked w ((List.mem_cons.mp hw).resolve_left (by simp))⟩

theorem resident_add (cell : VectorCell) :
    h.Resident { h with vectors := h.vectors.add cell } := by
  intro w managed
  obtain ⟨cell', b, found, hb⟩ := isManaged_iff.mp managed
  exact isManaged_iff.mpr ⟨cell', b, Store.find_add_of_find _ found, hb⟩

theorem IsShared.add (shared : h.IsShared v) (cell : VectorCell) :
    ({ h with vectors := h.vectors.add cell } : Heap).IsShared v := by
  obtain ⟨s, shows, state⟩ := shared
  obtain ⟨cell', found, rfl⟩ := sequence_eq_some_iff.mp shows
  exact ⟨_, sequence_eq_some_iff.mpr ⟨cell', Store.find_add_of_find _ found, rfl⟩, state⟩

/-- What a copy of a sequence comes to. -/
structure Copied (h : Heap) (c : ContextId) (s : Sequence) (d : VectorId) (h' : Heap) : Prop where
  moves : h.Moves (fun w => .list w ∈ s.elements) Nowhere h'
  made : ∃ complete, Made h h' c d ⟨s.type, s.elements, s.length, complete, .temporary⟩
  managed : h'.isManaged d = true
  shares : h.Shares h'
  resident : h.Resident h'
  marked : ∀ w, .list w ∈ s.elements → h'.IsShared w

theorem Copied.of_child {d w : VectorId} (C : h.Copied c s d h') (child : h'.Child d w) :
    .list w ∈ s.elements := by
  obtain ⟨complete, made⟩ := C.made
  obtain ⟨t, shows, mem⟩ := child
  cases made.sequence.symm.trans shows
  exact List.mem_of_mem_take mem

theorem Local.ne_copy {d : VectorId} (L : h.Local c v) (C : h.Copied c s d h') : v ≠ d := by
  rintro rfl
  obtain ⟨complete, made⟩ := C.made
  exact absurd (L.there.symm.trans made.new) (by decide)

theorem copied_of_buffer (I : h.Intact) (found : h.vectors.find? v = some cell) {b : Buffer}
    (used : usedBuffer cell h = .ok b h) (sound : SoundBuffer h cell.type b)
    (type : s.type = cell.type) (elements : s.elements = b.slots) (length : s.length = b.capacity) :
    ∃ d h', Op.copy v h = .ok d h' ∧ h.Copied cell.context s d h' := by
  obtain ⟨h₁, mark, resident, marked⟩ := markAllShared_run I b.slots (fun e he => (sound.2 e he).2)
  have made := overBuffer_run (h := h₁) cell.context (Nat.le_refl b.capacity)
  have run : Op.copy v h = .ok h₁.vectors.fresh
      { h₁ with vectors := h₁.vectors.add (h₁.cellOver cell.context b b.capacity) } :=
    (vector_bind found _).trans ((bind_of_ok used).trans ((bind_of_ok mark).trans made))
  have P : Performs _ _ (Op.copy v) h _ (fun _ _ => False) := copy_of_buffer I found used sound
  obtain ⟨M, new, shares⟩ := P.ok run
  have shape : (⟨cell.type, b.slots, b.capacity, h.isComplete b b.capacity, .temporary⟩ : Sequence) =
      ⟨s.type, s.elements, s.length, h.isComplete b b.capacity, .temporary⟩ := by
    rw [type, elements, length]
  rw [shape] at new
  rw [← elements] at M marked
  exact ⟨_, _, run, M, ⟨_, new⟩, isManaged_iff.mpr ⟨_, b, h₁.vectors.find_add_fresh _, rfl⟩, shares,
    fun w managed => resident_add _ w (resident w managed), fun w hw => (marked w hw).add _⟩

/-- Whatever a vector holds, a copy of it goes through or changes nothing. -/
theorem copy_copied (I : h.Intact) (found : h.vectors.find? v = some cell) :
    Outcome (Op.copy v) h (fun d h' => ∃ s, h.Copied cell.context s d h') (fun _ h' => h' = h) := by
  have reads := usedBuffer_reads I found
  cases used : usedBuffer cell h with
  | ok b h₁ =>
    obtain ⟨rfl, sound⟩ := Outcome.ok reads used
    obtain ⟨d, h', run, C⟩ := copied_of_buffer
      (s := ⟨cell.type, b.slots, b.capacity, true, .temporary⟩) I found used sound rfl
      (List.take_length) rfl
    exact .of_ok run ⟨_, C⟩
  | error f h₁ =>
    obtain ⟨rfl, _⟩ := Outcome.error reads used
    exact .of_error ((vector_bind found _).trans (bind_of_error used)) rfl

theorem Local.copy (L : h.Local c v) (I : h.Intact) (N : h.NamesIn c)
    (shows : h.sequence? v = some s) : ∃ d h', Op.copy v h = .ok d h' ∧ h.Copied c s d h' := by
  obtain ⟨cell, found, rfl⟩ := L.found
  obtain ⟨cell', found', rfl⟩ := sequence_eq_some_iff.mp shows
  cases found.symm.trans found'
  have F := I.vectors v cell found
  have reads : ∀ i < cell.length, ∃ e, (h.elements cell)[i]? = some e ∧ Op.getElem v i h = .ok e h := by
    intro i lt
    have bound : i < (h.elements cell).length := Nat.lt_of_lt_of_le lt F.length_le_elements
    refine ⟨_, List.getElem?_eq_getElem bound, ?_⟩
    rw [L.getElem I N shows, Sequence.getElem?_elements,
      if_pos (show i < (h.sequence cell).length from lt),
      show (h.sequence cell).slots[i]? = _ from List.getElem?_eq_getElem bound]
  obtain ⟨b, used, type, slots⟩ := usedBuffer_of_reads I found reads
  have sound : SoundBuffer h cell.type b := ⟨type, fun e he =>
    sound_of_mem I found (List.mem_of_mem_take (slots ▸ he))⟩
  have count : b.capacity = cell.length := by
    rw [Buffer.capacity, slots, List.length_take]
    exact Nat.min_eq_left F.length_le_elements
  exact copied_of_buffer I found used sound rfl slots.symm count.symm

/-! ### Writes -/

/-- A write to a managed vector leaves it managed, or it leaves everything as it is. -/
theorem setElem_managed (I : h.Intact) (found : h.vectors.find? v = some cell) {b : Buffer}
    (managed : cell.buffer = some b) (i : Nat) (e : Elem) :
    Outcome (setElem v i e) h (fun _ h' => h'.isManaged v = true) (fun _ h' => h' = h) := by
  have M := (I.vectors v cell found).managed b managed
  by_cases sort : e.type = cell.type
  · by_cases shared : cell.sharing.isShared = true
    · exact .of_error (setElem_shared found sort shared i) rfl
    · have run := setElem_passes (i := i) found sort (Bool.eq_false_iff.mpr shared)
      by_cases lt : i < cell.length
      · have pass := setPass_managed_run I found managed lt (sort.trans M.type.symm) none
        exact .of_ok (run.trans (bind_of_ok pass)) (isManaged_iff.mpr
          ⟨_, _, (Store.find_modify_self _ v _).trans (congrArg (Option.map _) (find_noted found e)),
            rfl⟩)
      · exact .of_error (run.trans (bind_of_error (setPass_beyond found lt none))) rfl
  · exact .of_error (setElem_mistyped found sort i) rfl

end Heap
end VectorHeap
