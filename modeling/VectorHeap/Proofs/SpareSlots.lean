import VectorHeap.Proofs.Completeness
import VectorHeap.Proofs.NewVectors
import VectorHeap.Proofs.Retention

/-! Slots past the length. New ones are made missing. What a smaller length cuts off stays where it is, and
comes back into use with a larger one. -/
namespace VectorHeap

theorem Sequence.lt_of_set {s s' : Sequence} {i : Nat} {e : Elem} {missing : Bool}
    (ok : s.set i e missing = .ok s') : i < s.length := by
  unfold Sequence.set at ok
  split at ok
  · cases ok
  · split at ok
    · cases ok
    · split at ok
      · assumption
      · cases ok

theorem Sequence.length_of_setLength {s s' : Sequence} {n : Nat} (ok : s.setLength n = .ok s') :
    s'.length = n ∧ s'.type = s.type := by
  unfold Sequence.setLength at ok
  split at ok
  · cases ok
  · cases ok
    exact ⟨rfl, rfl⟩

namespace Heap

open Op

variable {T : VectorId → Prop} {B : BufferId → Prop} {h h' h₀ : Heap} {v w : VectorId} {c : ContextId}
  {cell : VectorCell} {call : Call} {answered : Bool} {log : List Entry} {s : Sequence} {i : Nat} {e : Elem}

/-! ### What becomes of a vector -/

/-- A vector keeps its type, its length and its capacity. The elements past the length stay unless they lie
in foreign memory, where others may write. -/
def Rests (h : Heap) (v : VectorId) (s : Sequence) (h' : Heap) : Prop :=
  ∃ s', h'.sequence? v = some s' ∧ s'.type = s.type ∧ s'.length = s.length ∧ s'.capacity = s.capacity ∧
    (h.foreign? v = none → ∀ i, s.length ≤ i → s'.slots[i]? = s.slots[i]?)

theorem rests_of_sequence {complete : Bool} {sharing : SharingState}
    (shows : h'.sequence? v = some { s with complete, sharing }) : h.Rests v s h' :=
  ⟨_, shows, rfl, rfl, rfl, fun _ _ _ => rfl⟩

theorem Marks.rests (K : h.Marks h') (found : h.vectors.find? v = some cell) :
    h.Rests v (h.sequence cell) h' := by
  obtain ⟨_, _, after, _⟩ := K.shares v _ (sequence_eq_some_iff.mpr ⟨cell, found, rfl⟩)
  exact rests_of_sequence after

theorem KeepsCell.rests (I : h.Intact) (I' : h'.Intact) (K : h.KeepsCell v cell h')
    (found : h.vectors.find? v = some cell) : h.Rests v (h.sequence cell) h' := by
  obtain ⟨p, found', _⟩ := id K
  refine ⟨_, sequence_eq_some_iff.mpr ⟨_, found', rfl⟩, rfl, rfl, ?_, fun domestic i _ => ?_⟩
  · exact (I'.vectors v _ found').length_elements.trans (I.vectors v cell found).length_elements.symm
  · obtain ⟨shows, _⟩ := K.sequence I I' found
      (fun b behind => absurd (domestic.symm.trans behind) (by simp))
    obtain ⟨cell', found'', same⟩ := sequence_eq_some_iff.mp shows
    cases found'.symm.trans found''
    rw [same]

theorem Advances.keepsCell (I : h.Intact) (A : h.Advances T B h') (untouched : ¬ T v)
    (found : h.vectors.find? v = some cell) : h.KeepsCell v cell h' := by
  obtain ⟨h₁, M, rfl | R⟩ := A
  · exact M.keepsCell I untouched found
  · rw [R.rest]
    exact M.keepsCell I untouched found

theorem Ended.keepsCell (I : h.Intact) (ok : call.Admissible h) (E : h.Ended call h' answered)
    (untouched : ¬ call.touches h v) (found : h.vectors.find? v = some cell) : h.KeepsCell v cell h' := by
  cases E with
  | answer run => exact ((call.ends I ok).ok run).keepsCell I untouched found
  | stop f run =>
    rcases (call.ends I ok).error run with ⟨_, A⟩ | ⟨_, h₁, M, R⟩
    · exact A.keepsCell I untouched found
    · obtain ⟨p, found₁, kept, peers⟩ := M.keepsCell I untouched found
      refine ⟨p, (R.find v).trans found₁, kept, fun i q hi hq => ?_⟩
      exact (R.extends (M.intact I)).peers i q (peers i q hi hq)

/-- What a call comes to for a vector: nothing that its spare slots show, or another length, or another
capacity. -/
inductive Fares (h : Heap) (call : Call) (h' : Heap) (v : VectorId) (cell : VectorCell) : Bool → Prop
  | rests {answered : Bool} (rests : h.Rests v (h.sequence cell) h') : Fares h call h' v cell answered
  | moved (n : Nat) (s : Sequence) (same : call = .setLength v n)
      (moved : (h.sequence cell).setLength n = .ok s) (shows : h'.sequence? v = some s) :
    Fares h call h' v cell true
  | refilled (n : Nat) (same : call = .setCapacity v n) (low : cell.length ≤ n)
      (refilled : Refilled h v cell n h') : Fares h call h' v cell true

theorem fares_of_answer (I : h.Intact) (ok : call.Admissible h) (touched : call.touches h v)
    (found : h.vectors.find? v = some cell) (run : call.op h = .ok () h') :
    h.Fares call h' v cell true := by
  have marked : call.marks = true → h.Fares call h' v cell true := fun marks =>
    .rests (((call.marks_run I ok marks).ok run).rests found)
  cases call with
  | set w i e =>
    cases touched
    have alive : ∀ o, e.object? = some o → h.isAlive o = true := fun o ho => by
      rw [← has_ofObject]
      exact ok.alive _ (List.mem_cons_of_mem _ (by simp [Elem.refs, ho]))
    obtain ⟨_, s, written, after, _⟩ := (setElem_performs I found alive i).ok run
    have used := Sequence.lt_of_set written
    rw [set_eq written] at after
    refine .rests ⟨_, after, rfl, rfl, List.length_set, fun _ j past => ?_⟩
    exact List.getElem?_set_ne (by omega)
  | setLength w n =>
    cases touched
    obtain ⟨_, s, moved, after⟩ := (setLength_performs (B := Nowhere) I found n).ok run
    exact .moved n s rfl moved after
  | setCapacity w n =>
    cases touched
    obtain ⟨_, low, refilled⟩ := (setCapacity_performs I found n).ok run
    exact .refilled n rfl low refilled
  | promote w =>
    cases touched
    have P := (promote_performs I found).mono (fun _ _ _ o => o.1.1) (fun _ _ _ o => o.1.1)
    exact .rests (rests_of_sequence (P.discard.ok run).2)
  | adopt c type buffer length =>
    exact absurd ((has_vector_iff.mpr ⟨cell, found⟩).symm.trans touched) (by decide)
  | _ => first | exact marked rfl | exact touched.elim

theorem Ended.fares (I : h.Intact) (ok : call.Admissible h) (E : h.Ended call h' answered)
    (found : h.vectors.find? v = some cell) : h.Fares call h' v cell answered := by
  by_cases touched : call.touches h v
  · cases E with
    | answer run => exact fares_of_answer I ok touched found run
    | stop f run =>
      cases marks : call.marks with
      | true => exact .rests (((call.marks_run I ok marks).error run).rests found)
      | false =>
        have R := Call.maintains_of_stop I (has_vector_iff.mpr ⟨cell, found⟩) marks touched run
        obtain ⟨_, after⟩ := R.sequence I (sequence_eq_some_iff.mpr ⟨cell, found, rfl⟩)
        exact .rests (rests_of_sequence after)
  · exact .rests ((E.keepsCell I ok touched found).rests I (step_intact I (E.step ok)) found)

/-- A vector that came up has no spare slots, unless it was made with them. -/
theorem Ended.packed (ok : call.Admissible h) (E : h.Ended call h' answered)
    (found : h'.vectors.find? v = some cell) (new : h.has (.vector v) = false) :
    cell.length = cell.capacity ∨ answered = true ∧ ∃ c type length capacity,
      call = .withCapacity c type length capacity ∧ withCapacity c type length capacity h = .ok v h' := by
  have full : (∀ c type length capacity, call ≠ .withCapacity c type length capacity) →
      cell.length = cell.capacity := fun plain => by
    have P := (Call.packing ok plain).packs h (.refl h)
    cases E with
    | answer run => exact P.ok run v cell found new
    | stop f run => exact P.error run v cell found new
  cases call with
  | withCapacity c type length capacity =>
    have P : Outcome (discard (withCapacity c type length capacity)) h
        (fun _ h' => ∃ w, withCapacity c type length capacity h = .ok w h' ∧ ∀ v cell,
          h'.vectors.find? v = some cell → h.has (.vector v) = false → v ≠ w → cell.length = cell.capacity)
        (fun _ h' => h.Packed h') := by
      have packed := withCapacity_packed h c type length capacity
      refine Outcome.map ?_
      cases made : withCapacity c type length capacity h with
      | ok w h₁ => exact Outcome.of_ok made ⟨w, rfl, packed.ok made⟩
      | error f h₁ => exact Outcome.of_error made (packed.error made)
    cases E with
    | stop f run => exact .inl (P.error run v cell found new)
    | answer run =>
      obtain ⟨w, made, others⟩ := P.ok run
      by_cases same : v = w
      · exact .inr ⟨rfl, c, type, length, capacity, rfl, same ▸ made⟩
      · exact .inl (others v cell found new same)
  | _ => exact .inl (full nofun)

/-! ### What is in spare slots -/

/-- The element that a vector had in a slot when its length was last set to end before it. Since then the
slot was there and not in use. -/
inductive CutOff (v : VectorId) (i : Nat) (e : Elem) : List Entry → Prop
  | cut (g : Heap) (n : Nat) (log : List Entry) (low : n ≤ i) (held : g.HoldsAt v i e) :
    CutOff v i e (⟨g, .setLength v n, true⟩ :: log)
  | later (x : Entry) (log : List Entry) (before : CutOff v i e log)
      (spare : ∃ s, x.before.sequence? v = some s ∧ s.length ≤ i ∧ i < s.capacity) :
    CutOff v i e (x :: log)

def Shortened (v : VectorId) (log : List Entry) : Prop :=
  ∃ x ∈ log, x.answered = true ∧ ∃ n s, x.call = .setLength v n ∧ x.before.sequence? v = some s ∧
    n < s.length

def Lengthened (w : VectorId) (log : List Entry) : Prop :=
  ∃ x ∈ log, x.answered = true ∧ ∃ n, n ≠ 0 ∧ x.call = .setLength w n

def Borrowed (v : VectorId) (log : List Entry) : Prop :=
  ∃ x ∈ log, x.answered = true ∧ v = x.before.vectors.fresh ∧
    ∃ c type b length, x.call = .adopt c type b length

/-- What is in a slot of a context that nothing was stored in: a missing value, the missing string of the
context, or a list that is empty unless its own length was set. -/
inductive Blank (h : Heap) (log : List Entry) (c : ContextId) : Elem → Prop
  | value (t : InlineType) : h.Blank log c (.ofValue t t.na)
  | string (s : StringId) (named : h.naString? c = some s) : h.Blank log c (.str s)
  | list (w : VectorId) (s : Sequence) (shows : h.sequence? w = some s) (type : s.type = .list)
      (empty : s.length = 0 ∨ Lengthened w log) : h.Blank log c (.list w)

/-- Why an element is in a spare slot: the slot is blank, or its element was cut off. It is the one that was
cut off, unless foreign memory lay behind the vector. -/
inductive Spare (h : Heap) (log : List Entry) (v : VectorId) (c : ContextId) (i : Nat) (e : Elem) : Prop
  | blank (domestic : h.foreign? v = none) (blank : h.Blank log c e)
  | left (e' : Elem) (cut : CutOff v i e' log) (same : e' = e ∨ Borrowed v log)

theorem CutOff.shortened (C : CutOff v i e log) : Shortened v log := by
  induction C with
  | cut g n log low held =>
    obtain ⟨s, shows, used, _⟩ := held
    exact ⟨_, List.mem_cons_self, rfl, n, s, rfl, shows, Nat.lt_of_le_of_lt low used⟩
  | later x log before spare ih =>
    obtain ⟨y, hy, made⟩ := ih
    exact ⟨y, List.mem_cons_of_mem x hy, made⟩

theorem Borrowed.later (F : Borrowed v log) (x : Entry) : Borrowed v (x :: log) := by
  obtain ⟨y, hy, made⟩ := F
  exact ⟨y, List.mem_cons_of_mem x hy, made⟩

theorem borrowed_of_adopted {b : BufferId} (A : Adopted v b log) : Borrowed v log := by
  induction A with
  | adopt g c type length log fresh =>
    exact ⟨_, List.mem_cons_self, rfl, fresh, c, type, some b, length, rfl⟩
  | later x log before kept ih => exact ih.later x

theorem Lengthened.later (L : Lengthened w log) (x : Entry) : Lengthened w (x :: log) := by
  obtain ⟨y, hy, made⟩ := L
  exact ⟨y, List.mem_cons_of_mem x hy, made⟩

theorem IsFiller.blank {type : ElemType} (F : h.IsFiller c type e) (log : List Entry) :
    h.Blank log c e := by
  unfold IsFiller at F
  split at F
  · rw [F]
    exact .value _
  · exact .string _ F.2
  · obtain ⟨_, _, shows, _⟩ := F
    exact .list _ _ shows rfl (.inl rfl)
  · exact F.elim

theorem Blank.isNA (I : h.Intact) (blank : h.Blank log c e) :
    h.isNA e = decide (e.type ≠ .raw ∧ e.type ≠ .list) := by
  cases blank with
  | value t =>
    have F : h.IsFiller c t.elemType (.ofValue t t.na) := by
      simp only [IsFiller, InlineType.ofElemType_elemType]
    rw [F.isNA I, F.type_eq]
  | string s named =>
    have F : h.IsFiller c .str (.str s) := ⟨rfl, named⟩
    exact F.isNA I
  | list w s shows type empty => rfl

/-! ### Blank slots stay blank -/

theorem Extends.naString (E : h.Extends h') {t : StringId} (named : h.naString? c = some t) :
    h'.naString? c = some t := by
  obtain ⟨ctx, found, named⟩ := Option.bind_eq_some_iff.mp named
  obtain ⟨ctx', found', _, _, _, kept⟩ := E.contexts c ctx found
  exact Option.bind_eq_some_iff.mpr ⟨ctx', found', kept t named⟩

theorem Advances.naString (I : h.Intact) (A : h.Advances T B h') {t : StringId}
    (named : h.naString? c = some t) : h'.naString? c = some t := by
  obtain ⟨h₁, M, rfl | R⟩ := A
  · exact M.naString I named
  · rw [R.rest]
    exact M.naString I named

theorem Ended.naString (I : h.Intact) (ok : call.Admissible h) (E : h.Ended call h' answered)
    {t : StringId} (named : h.naString? c = some t) : h'.naString? c = some t := by
  cases E with
  | answer run => exact ((call.ends I ok).ok run).naString I named
  | stop f run =>
    rcases (call.ends I ok).error run with ⟨_, A⟩ | ⟨_, h₁, M, R⟩
    · exact A.naString I named
    · exact (R.extends (M.intact I)).naString (M.naString I named)

theorem Blank.step (I : h.Intact) (ok : call.Admissible h) (E : h.Ended call h' answered)
    (blank : h.Blank log c e) : h'.Blank (⟨h, call, answered⟩ :: log) c e := by
  cases blank with
  | value t => exact .value t
  | string t named => exact .string t (E.naString I ok named)
  | list w s shows type empty =>
    obtain ⟨cell, found, rfl⟩ := sequence_eq_some_iff.mp shows
    have before := empty.imp_right (·.later ⟨h, call, answered⟩)
    cases E.fares I ok found with
    | rests rests =>
      obtain ⟨s', after, type', length, _⟩ := rests
      exact .list w s' after (type'.trans type) (length ▸ before)
    | moved n s' same moved after =>
      obtain ⟨length, type'⟩ := Sequence.length_of_setLength moved
      refine .list w s' after (type'.trans type) ?_
      by_cases none : n = 0
      · exact .inl (length.trans none)
      · exact .inr ⟨_, List.mem_cons_self, rfl, n, none, same⟩
    | refilled n same low refilled =>
      obtain ⟨es, _, _, after⟩ := refilled
      exact .list w _ after type before

theorem Blank.tidy (I : h.Intact) (S : h.Sheds h') (there : h'.has (.context c) = true)
    (alive : ∀ o, e.object? = some o → h'.isAlive o = true) (blank : h.Blank log c e) :
    h'.Blank log c e := by
  cases blank with
  | value t => exact .value t
  | string t named =>
    obtain ⟨ctx', found'⟩ := has_context_iff.mp there
    obtain ⟨ctx, found, _, _, same, _⟩ := S.contexts c ctx' found'
    rw [naString?, found] at named
    exact .string t (by rw [naString?, found', Option.bind_some, same]; exact named)
  | list w s shows type empty =>
    obtain ⟨cell, found'⟩ := (Store.contains_iff _ w).mp (alive (.vector w) rfl)
    exact .list w s ((S.sequence I found').trans shows) type empty

/-! ### Spare slots after one more call -/

section
variable (I : h.Intact) (ok : call.Admissible h) (E : h.Ended call h' answered) (t : h.Traced log)
include I E

theorem Ended.domestic (there : h.has (.vector v) = true) (domestic : h.foreign? v = none) :
    h'.foreign? v = none :=
  Option.eq_none_iff_forall_not_mem.mpr (fun _ behind =>
    absurd (domestic.symm.trans (E.foreign_back I there behind)) (by simp))

theorem Ended.context_of_vector {cell' : VectorCell} (found : h.vectors.find? v = some cell)
    (found' : h'.vectors.find? v = some cell') : cell'.context = cell.context := by
  obtain ⟨h₁, posted, last⟩ := E.posted I
  have own : h₁.contextOf? (.vector v) = some cell.context :=
    posted.contextOf (by rw [contextOf?, found]; rfl)
  have after : h₁.vectors.find? v = some cell' := by
    rcases last with rfl | ⟨f, R⟩
    · exact found'
    · exact (R.find v).symm.trans found'
  rw [contextOf?, after] at own
  exact Option.some.inj own

include ok

theorem Ended.spare_of_new {cell' : VectorCell} (new : h.has (.vector v) = false)
    (found' : h'.vectors.find? v = some cell') (past : cell'.length ≤ i)
    (slot : (h'.elements cell')[i]? = some e) :
    h'.Spare (⟨h, call, answered⟩ :: log) v cell'.context i e := by
  have I' := step_intact I (E.step ok)
  rcases E.packed ok found' new with full | ⟨_, c, type, length, capacity, rfl, run⟩
  · obtain ⟨room, _⟩ := List.getElem?_eq_some_iff.mp slot
    rw [(I'.vectors v cell' found').length_elements] at room
    omega
  · have alive : h.has (.context c) = true := ok.alive _ (List.mem_singleton_self _)
    obtain ⟨_, es, _, F, _, made⟩ := (withCapacity_performs I alive type length capacity).ok run
    obtain ⟨_, own, shows, foreign⟩ := made
    have same := Option.some.inj ((sequence_eq_some_iff.mpr ⟨cell', found', rfl⟩).symm.trans shows)
    have context : cell'.context = c := by
      rw [contextOf?, found'] at own
      exact Option.some.inj own
    rw [show h'.elements cell' = es from congrArg Sequence.slots same] at slot
    rw [context]
    exact .blank foreign ((F.fillers e (List.mem_of_getElem? slot)).blank _)

include t

theorem Spare.kept {e' : Elem} (before : h.Spare log v c i e') (found : h.vectors.find? v = some cell)
    (past : cell.length ≤ i) (slot : (h.elements cell)[i]? = some e')
    (same : h.foreign? v = none → e' = e) : h'.Spare (⟨h, call, answered⟩ :: log) v c i e := by
  have there : h.has (.vector v) = true := has_vector_iff.mpr ⟨cell, found⟩
  cases before with
  | blank domestic blank =>
    exact .blank (E.domestic I there domestic) (same domestic ▸ blank.step I ok E)
  | left e₀ cut known =>
    obtain ⟨room, _⟩ := List.getElem?_eq_some_iff.mp slot
    refine .left e₀ (cut.later _ log ⟨_, sequence_eq_some_iff.mpr ⟨cell, found, rfl⟩, past, room⟩) ?_
    cases foreign : h.foreign? v with
    | none => exact known.imp (·.trans (same foreign)) (·.later _)
    | some b => exact .inr ((borrowed_of_adopted ((t.foreign v b there).mp foreign)).later _)

theorem Ended.spare {cell' : VectorCell} (found : h.vectors.find? v = some cell)
    (found' : h'.vectors.find? v = some cell')
    (all : ∀ i e, cell.length ≤ i → (h.elements cell)[i]? = some e → h.Spare log v cell.context i e)
    (past : cell'.length ≤ i) (slot : (h'.elements cell')[i]? = some e) :
    h'.Spare (⟨h, call, answered⟩ :: log) v cell'.context i e := by
  have shows := sequence_eq_some_iff.mpr ⟨cell, found, rfl⟩
  have after := sequence_eq_some_iff.mpr ⟨cell', found', rfl⟩
  rw [E.context_of_vector I found found']
  cases E.fares I ok found with
  | rests rests =>
    obtain ⟨s', after', _, length, capacity, spare⟩ := rests
    cases after.symm.trans after'
    have past : cell.length ≤ i := Nat.le_trans (Nat.le_of_eq length.symm) past
    have room : i < (h.elements cell).length := by
      obtain ⟨room, _⟩ := List.getElem?_eq_some_iff.mp slot
      exact Nat.lt_of_lt_of_eq room capacity
    refine (all i _ past (List.getElem?_eq_getElem room)).kept I ok E t found past
      (List.getElem?_eq_getElem room) (fun domestic => ?_)
    have same := (spare domestic i past).symm.trans slot
    exact Option.some.inj ((List.getElem?_eq_getElem room).symm.trans same)
  | moved n s' same moved after' =>
    cases after.symm.trans after'
    have slot : (h.elements cell)[i]? = some e := by
      rw [← show (h'.sequence cell').slots = h.elements cell from setLength_eq moved]
      exact slot
    by_cases past' : cell.length ≤ i
    · exact (all i e past' slot).kept I ok E t found past' slot (fun _ => rfl)
    · subst same
      have low : n ≤ i := (Sequence.length_of_setLength moved).1 ▸ past
      exact .left e (.cut h n log low ⟨_, shows, Nat.lt_of_not_le past', slot⟩) (.inl rfl)
  | refilled n same low refilled =>
    subst same
    obtain ⟨es, _, F, after'⟩ := refilled
    have resized := Option.some.inj (after.symm.trans after')
    have past : cell.length ≤ i := Nat.le_trans (Nat.le_of_eq (congrArg Sequence.length resized).symm) past
    have slots : h'.elements cell' = (h.elements cell).take n ++ es := congrArg Sequence.slots resized
    rw [slots, List.getElem?_append] at slot
    split at slot
    · rename_i room
      rw [List.length_take] at room
      rw [List.getElem?_take_of_lt (by omega)] at slot
      exact (all i e past slot).kept I ok E t found past slot (fun _ => rfl)
    · refine .blank (Option.eq_none_iff_forall_not_mem.mpr (fun b behind => ?_))
        ((F.fillers e (List.mem_of_getElem? slot)).blank _)
      -- setting the capacity has moved it off foreign memory
      have adopted := ((t.step I ok E).foreign v b (has_vector_iff.mpr ⟨cell', found'⟩)).mp behind
      rcases adopted_cons_iff.mp adopted with ⟨_, _, _, _, _, other⟩ | ⟨_, kept⟩
      · cases other
      · exact kept rfl n rfl

end

theorem Tidies.spare (I : h.Intact) (t : h.Traced log) (last : h.Tidies h')
    (found' : h'.vectors.find? v = some cell) (slot : (h'.elements cell)[i]? = some e)
    (before : (h.elements cell)[i]? = some e → h.Spare log v cell.context i e) :
    h'.Spare log v cell.context i e := by
  have S := last.sheds I
  have I' := S.intact I
  have found := S.vectors v cell found'
  have same : h'.elements cell = h.elements cell := by
    have shows := S.sequence I found'
    rw [sequence?, sequence?, found, found'] at shows
    exact congrArg Sequence.slots (Option.some.inj shows)
  cases before (same ▸ slot) with
  | blank domestic blank =>
    obtain ⟨ctx, hctx⟩ := I'.context_of_vector found'
    refine .blank (Option.eq_none_iff_forall_not_mem.mpr (fun b behind => ?_))
      (blank.tidy I S (has_context_iff.mpr ⟨ctx, hctx⟩)
        (fun o => I'.alive_of_mem found' (List.mem_of_getElem? slot)))
    have adopted := ((t.tidy I last).foreign v b (has_vector_iff.mpr ⟨cell, found'⟩)).mp behind
    have external := (t.foreign v b (has_vector_iff.mpr ⟨cell, found⟩)).mpr adopted
    exact absurd (domestic.symm.trans external) (by simp)
  | left e' cut known => exact .left e' cut known

theorem Logged.spare {supply : Nat → Nat → Option Address} (run : Logged { supply } log h)
    (found : h.vectors.find? v = some cell) (past : cell.length ≤ i)
    (slot : (h.elements cell)[i]? = some e) : h.Spare log v cell.context i e := by
  have I₀ := intact_of_supply supply
  have t₀ : Heap.Traced { supply } [] := ⟨nofun, fun v b there => absurd (has_vector_iff.mp there) (by simp)⟩
  induction run generalizing v cell i e with
  | start => exact absurd found (by simp)
  | @call _ g _ _ run call ok ended ih =>
    have I := run.intact I₀
    have t := run.traced I₀ t₀
    cases there : g.has (.vector v) with
    | false => exact ended.spare_of_new I ok there found past slot
    | true =>
      obtain ⟨cell₀, found₀⟩ := has_vector_iff.mp there
      exact ended.spare I ok t found₀ found (fun i e => ih found₀) past slot
  | tidy run last ih =>
    have I := run.intact I₀
    exact last.spare I (run.traced I₀ t₀) found slot
      (ih ((last.sheds I).vectors v cell found) past)

/-! ### Spare slots of reachable heaps -/

theorem holdsAt_of_setLength (I : h.Intact) (found : h.vectors.find? v = some cell)
    (slot : (h.elements cell)[i]? = some e) {n : Nat} (reach : i < n) (fits : n ≤ cell.capacity) :
    ∃ h', Op.setLength v n h = .ok () h' ∧ h'.HoldsAt v i e := by
  have run := setLength_run I found fits
  obtain ⟨_, s, moved, shows⟩ := (setLength_performs (B := Nowhere) I found n).ok run
  refine ⟨_, run, s, shows, ?_, ?_⟩
  · rw [(Sequence.length_of_setLength moved).1]
    exact reach
  · rw [setLength_eq moved]
    exact slot

/-- After any run, an element past the length of a vector is of the type of the vector, and there for one of
two reasons. Nothing foreign lies behind the vector and its slot is blank: it holds the missing value of the
type, the missing string of the context, or a list whose length is zero unless it was set. Or a smaller
length cut it off, and since then the slot was there and not in use; it is the element that was cut off,
unless the vector was made over foreign memory. So all spare slots are blank while the length was never made
smaller, and missing if the type has missing values. A length that reaches past the slot, within the
capacity, brings that element into use. -/
theorem spare_slots_after_run {supply : Nat → Nat → Option Address} (run : Logged { supply } log h)
    (found : h.vectors.find? v = some cell) (past : cell.length ≤ i)
    (slot : (h.elements cell)[i]? = some e) :
    e.type = cell.type ∧ h.Spare log v cell.context i e ∧
    (¬ Shortened v log → h.foreign? v = none ∧ h.Blank log cell.context e ∧
      h.isNA e = decide (cell.type ≠ .raw ∧ cell.type ≠ .list)) ∧
    ∀ n, i < n → n ≤ cell.capacity → ∃ h', Op.setLength v n h = .ok () h' ∧ h'.HoldsAt v i e := by
  have I := run.intact (intact_of_supply supply)
  have spare := run.spare found past slot
  have type := (I.vectors v cell found).type_elements (List.mem_of_getElem? slot)
  refine ⟨type, spare, fun never => ?_, fun n reach fits => holdsAt_of_setLength I found slot reach fits⟩
  cases spare with
  | blank domestic blank => exact ⟨domestic, blank, type ▸ blank.isNA I⟩
  | left e' cut known => exact absurd cut.shortened never

/-- A promoted vector that is cut to its first element and gets another slot. What was cut off is in front of
the missing value. -/
theorem spare_slots_after_growth :
    ∃ log h cell, Logged {} log h ∧ h.vectors.find? ⟨0⟩ = some cell ∧
      h.elements cell = [.int 1, .int 2, .ofValue .int InlineType.int.na] ∧
      h.Spare log ⟨0⟩ ⟨0⟩ 1 (.int 2) ∧ h.Spare log ⟨0⟩ ⟨0⟩ 2 (.ofValue .int InlineType.int.na) ∧
      ∃ h', Op.setLength ⟨0⟩ 3 h = .ok () h' ∧ h'.HoldsAt ⟨0⟩ 1 (.int 2) := by
  have run₁ : Logged {} [⟨{}, .newContext .default, true⟩] _ :=
    Logged.start.call (.newContext .default) ⟨by decide, by simp⟩ (.answer rfl)
  have run₂ := run₁.call (.newVector ⟨0⟩ .int [.int 1, .int 2]) ⟨by decide, by simp⟩ (.answer rfl)
  have run₃ := run₂.call (.promote ⟨0⟩) ⟨by decide, by simp⟩ (.answer (run_of_ok rfl))
  have run₄ := run₃.call (.setLength ⟨0⟩ 1) ⟨by decide, by simp⟩ (.answer (run_of_ok rfl))
  have run₅ := run₄.call (.setCapacity ⟨0⟩ 3) ⟨by decide, by simp⟩ (.answer (run_of_ok rfl))
  have second := spare_slots_after_run (v := ⟨0⟩) (i := 1) (e := .int 2) run₅ rfl (by decide) rfl
  have third := spare_slots_after_run (v := ⟨0⟩) (i := 2) (e := .ofValue .int InlineType.int.na) run₅ rfl
    (by decide) rfl
  exact ⟨_, _, _, run₅, rfl, rfl, second.2.1, third.2.1, second.2.2.2 3 (by decide) (by decide)⟩

/-- A vector of three integers that is cut to its first one and reaches over all of them again. The second
one is not missing. -/
theorem spare_slots_after_cut :
    ∃ log h cell h', Logged {} log h ∧ h.vectors.find? ⟨0⟩ = some cell ∧ cell.type = .int ∧
      cell.length = 1 ∧ (h.elements cell)[1]? = some (.int 2) ∧ h.isNA (.int 2) = false ∧
      Op.setLength ⟨0⟩ 3 h = .ok () h' ∧ getElem ⟨0⟩ 1 h' = .ok (.int 2) h' := by
  have run₁ : Logged {} [⟨{}, .newContext .default, true⟩] _ :=
    Logged.start.call (.newContext .default) ⟨by decide, by simp⟩ (.answer rfl)
  have run₂ := run₁.call (.newVector ⟨0⟩ .int [.int 1, .int 2, .int 3]) ⟨by decide, by simp⟩
    (.answer rfl)
  have run₃ := run₂.call (.setLength ⟨0⟩ 1) ⟨by decide, by simp⟩ (.answer (run_of_ok rfl))
  exact ⟨_, _, _, _, run₃, rfl, rfl, rfl, rfl, by decide, run_of_ok rfl, rfl⟩

end Heap
end VectorHeap
