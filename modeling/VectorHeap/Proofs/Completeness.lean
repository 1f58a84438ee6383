import VectorHeap.Proofs.ReadBack
import VectorHeap.Proofs.Switching

/-! The completeness hint. It is computed once and only taken back afterwards: by a missing element
that is written, and by a length that grows, whatever comes into use then. A vector over foreign memory
is never complete, so nothing that others write there makes the hint wrong. -/
namespace VectorHeap

open Op

namespace Heap

variable {allowed : Fault → Prop} {h h' h₀ : Heap} {c : ContextId} {v : VectorId}
  {cell : VectorCell} {past : List Heap}

/-- If the vector says that it is complete, nothing that it has in use is missing, and nothing foreign
is behind it. -/
def Truthful (h : Heap) (v : VectorId) : Prop :=
  ∀ s, h.sequence? v = some s → s.complete = true →
    h.foreign? v = none ∧ ∀ e ∈ s.elements, h.isNA e = false

theorem isNA_congr (same : h'.strings = h.strings) (e : Elem) : h'.isNA e = h.isNA e := by
  cases e with
  | str s => simp only [isNA, same]
  | _ => rfl

theorem truthful_of_absent (absent : h.vectors.find? v = none) : h.Truthful v := by
  intro s shows
  rw [sequence?, absent] at shows
  cases shows

theorem KeepsCell.truthful (I : h.Intact) (I' : h'.Intact) (K : h.KeepsCell v cell h')
    (found : h.vectors.find? v = some cell)
    (same : ∀ e ∈ (h.sequence cell).elements, h'.isNA e = h.isNA e) (T : h.Truthful v) :
    h'.Truthful v := by
  intro s shows complete
  have before := sequence_eq_some_iff.mpr ⟨cell, found, rfl⟩
  -- A complete vector has no foreign memory that could have changed behind it.
  have hint : cell.complete = true := by
    obtain ⟨p, found', _⟩ := K
    obtain ⟨cell', found'', rfl⟩ := sequence_eq_some_iff.mp shows
    cases found'.symm.trans found''
    exact complete
  obtain ⟨domestic, present⟩ := T _ before hint
  obtain ⟨after, foreign⟩ := K.sequence I I' found (fun b behind =>
    absurd (domestic.symm.trans behind) (by simp))
  cases after.symm.trans shows
  exact ⟨foreign.trans domestic, fun e he => (same e he).trans (present e he)⟩

/-! ### Changes -/

theorem Change.added {T : VectorId → Prop} {B : BufferId → Prop} (C : Change T B h h')
    (absent : h.vectors.find? v = none) (found : h'.vectors.find? v = some cell) :
    ∃ b, h.Addable cell b ∧ h'.strings = h.strings := by
  have kept : h'.vectors.find? v ≠ none := by rw [found]; exact Option.some_ne_none cell
  have gone : ∀ {α : Type} (key : VectorCell → α),
      (h'.vectors.find? v).map key = (h.vectors.find? v).map key → False := by
    intro α key same
    rw [absent, Option.map_none, Option.map_eq_none_iff] at same
    exact kept same
  cases C with
  | growth G =>
    cases G with
    | vector cell' b addable =>
      rcases Store.eq_or_find_of_find_add found with ⟨_, rfl⟩ | old
      · exact ⟨b, addable, rfl⟩
      · exact absurd (absent.symm.trans old) (by simp)
    | peer c ctx o site found' own bare free =>
      cases o with
      | vector w =>
        exact (gone (fun _ => ()) (Store.map_find_modify _ w v _ _ (fun _ _ => rfl))).elim
      | string s => exact absurd absent kept
    | _ => exact absurd absent kept
  | update w cell' s own U => exact (gone _ (U.revises.vectors v)).elim
  | environs R => exact (gone _ (R.vectors v)).elim
  | text s cell' p found' pointer R => exact (gone _ (R.vectors v)).elim

theorem Addable.truthful {b : Buffer} (A : h.Addable cell b) (same : h'.strings = h.strings)
    (found : h'.vectors.find? v = some cell) : h'.Truthful v := by
  intro s shows complete
  obtain ⟨cell', found', rfl⟩ := sequence_eq_some_iff.mp shows
  cases found.symm.trans found'
  refine ⟨Option.eq_none_iff_forall_not_mem.mpr (fun b' behind => ?_), fun e he => ?_⟩
  · obtain ⟨cell', i, _, _, found', pointer, _⟩ := foreign_eq_some_iff.mp behind
    cases found.symm.trans found'
    exact absurd (A.peer.symm.trans pointer) (by simp)
  · rw [isNA_congr same]
    refine A.complete complete e ?_
    rw [← elements_managed (h := h') A.buffer]
    exact he

/-- A sequence that continues another is complete only if nothing that is missing came into use. -/
theorem Updates.truthful {s : Sequence} (U : h.Updates v cell s h')
    (continues : (h.sequence cell).Continues h.isNA s)
    (behind : s.complete = true → ∀ b, h'.foreign? v = some b → h.foreign? v = some b)
    (T : h.Truthful v) : h'.Truthful v := by
  intro s' shows complete
  cases U.sequence.symm.trans shows
  obtain ⟨hint, fresh⟩ := continues.hint complete
  obtain ⟨domestic, present⟩ := T _ (sequence_eq_some_iff.mpr ⟨cell, U.found, rfl⟩) hint
  refine ⟨Option.eq_none_iff_forall_not_mem.mpr (fun b there => ?_), fun e he => ?_⟩
  · exact absurd (domestic.symm.trans (behind complete b there)) (by simp)
  · rw [isNA_congr U.revises.strings]
    exact (fresh e he).elim (present e) id

theorem Change.truthful {T : VectorId → Prop} {B : BufferId → Prop} (I : h.Intact)
    (C : Change T B h h') (all : ∀ v, h.Truthful v) (v : VectorId) : h'.Truthful v := by
  cases found : h.vectors.find? v with
  | some cell =>
    rcases C.continues_or_keeps I found with ⟨s, U, continues, behind⟩ | K
    · exact U.truthful continues behind (all v)
    · refine K.truthful I (C.intact I) found (fun e he => C.moves.isNA I (fun o => ?_)) (all v)
      exact I.alive_of_mem found (List.mem_of_mem_take he)
  | none =>
    cases found' : h'.vectors.find? v with
    | some cell =>
      obtain ⟨b, A, strings⟩ := C.added found found'
      exact A.truthful strings found'
    | none => exact truthful_of_absent found'

theorem Moves.truthful {T : VectorId → Prop} {B : BufferId → Prop} (I : h.Intact)
    (M : h.Moves T B h') (all : ∀ v, h.Truthful v) : ∀ v, h'.Truthful v := by
  induction M with
  | refl => exact all
  | tail first last ih => exact last.truthful (first.intact I) ih

/-! ### Other steps -/

theorem Refusal.find {f : Fault} (R : h.Refusal f h') (v : VectorId) :
    h'.vectors.find? v = h.vectors.find? v := by
  induction R with
  | entered h c ctx o site found issued => rfl
  | discarded h h' cell rest ih => exact ih.trans (find_discarded h cell v)

theorem Refusal.strings {f : Fault} (R : h.Refusal f h') : h'.strings = h.strings := by
  induction R with
  | entered h c ctx o site found issued => rfl
  | discarded h h' cell rest ih => exact ih

theorem Refusal.truthful {f : Fault} (I : h.Intact) (R : h.Refusal f h') (all : ∀ v, h.Truthful v)
    (v : VectorId) : h'.Truthful v := by
  cases found : h.vectors.find? v with
  | some cell =>
    have E := R.extends I
    have K : h.KeepsCell v cell h' :=
      ⟨cell.peer, (R.find v).trans found, fun _ => id, fun i q _ hq => E.peers i q hq⟩
    exact K.truthful I (R.intact I) found (fun e _ => isNA_congr R.strings e) (all v)
  | none => exact truthful_of_absent ((R.find v).trans found)

theorem Sheds.truthful (I : h.Intact) (S : h.Sheds h') (all : ∀ v, h.Truthful v) (v : VectorId) :
    h'.Truthful v := by
  have I' := S.intact I
  cases found' : h'.vectors.find? v with
  | some cell =>
    have found := S.vectors v cell found'
    have after : h'.sequence? v = some (h.sequence cell) :=
      (S.sequence I found').trans (sequence_eq_some_iff.mpr ⟨cell, found, rfl⟩)
    refine (S.keepsCell I found').truthful I I' found (fun e he => ?_) (all v)
    -- The strings of a vector that is left are left.
    cases e with
    | str s =>
      obtain ⟨cell', found'', shown⟩ := sequence_eq_some_iff.mp after
      have held : Elem.str s ∈ h'.elements cell' := by
        rw [← shown] at he
        exact List.mem_of_mem_take he
      obtain ⟨text, there⟩ := (Store.contains_iff _ s).mp
        (I'.alive_of_mem found'' held (o := .string s) rfl)
      simp only [isNA, there, S.strings s text there]
    | _ => rfl
  | none => exact truthful_of_absent found'

theorem step_truthful (I : h.Intact) (s : Step allowed h h') (all : ∀ v, h.Truthful v) :
    ∀ v, h'.Truthful v := by
  rcases step_cases I s with ⟨T, B, h₁, M, rfl | R⟩ | ⟨_, f, T, B, h₁, M, R⟩ | S
  · exact M.truthful I all
  · have truthful := M.truthful I all
    rw [R.rest]
    exact truthful
  · exact R.truthful (M.intact I) (M.truthful I all)
  · exact S.truthful I all

theorem RunIn.truthful (I : h₀.Intact) (all : ∀ v, h₀.Truthful v) (run : RunIn c h₀ past h) :
    ∀ v, h.Truthful v := by
  induction run with
  | start => exact all
  | step run last ih => exact step_truthful (run.intact I) last ih
  | release run d p ownerless ih =>
    exact (release_sheds (run.intact I) d ownerless).truthful (run.intact I) ih
  | reclaim run d p there ownerless ih =>
    exact (reclaim_sheds (run.intact I) d there ownerless).truthful (run.intact I) ih

/-- After any run in which the context registered no handle twice, a vector of it that says it is
complete answers every access in use, and never with a missing element. Its elements are of its own
context. -/
theorem complete_after_run {supply : Nat → Nat → Option Address} (run : RunIn c { supply } past h)
    (found : h.vectors.find? v = some cell) (context : cell.context = c)
    (own : h.Own c (h.sequence cell).elements) (complete : cell.complete = true) {i : Nat}
    (lt : i < cell.length) : ∃ e, getElem v i h = .ok e h ∧ h.isNA e = false := by
  have start := intact_of_supply supply
  have I := run.intact start
  have shows := sequence_eq_some_iff.mpr ⟨cell, found, rfl⟩
  have present := (run.truthful start (fun v => truthful_of_absent rfl) v _ shows complete).2
  have F := I.vectors v cell found
  have bound : i < (h.elements cell).length := Nat.lt_of_lt_of_le lt F.length_le_elements
  have slot : (h.sequence cell).elements[i]? = some (h.elements cell)[i] := by
    rw [Sequence.getElem?_elements, if_pos (show i < (h.sequence cell).length from lt)]
    exact List.getElem?_eq_getElem bound
  have used := List.mem_of_getElem? slot
  have H : h.HoldsAt v i (h.elements cell)[i] := ⟨_, shows, lt, List.getElem?_eq_getElem bound⟩
  refine ⟨(h.elements cell)[i], ?_, present _ used⟩
  refine H.getElem_own I (run.namesIn start (namesIn_of_supply supply c)) ?_ (fun e he => ?_)
  · rw [contextOf?, found, Option.map_some, context]
  · cases List.mem_singleton.mp he
    exact own _ used

/-- A promoted vector of strings that is cut to its first element. The missing one stays in its second
slot. -/
theorem complete_after_cut :
    ∃ past h cell e, RunIn ⟨0⟩ {} past h ∧ h.vectors.find? ⟨0⟩ = some cell ∧
      cell.complete = true ∧ h.elements cell = [.str ⟨0⟩, .str ⟨1⟩] ∧ h.isNA (.str ⟨1⟩) = true ∧
      getElem ⟨0⟩ 0 h = .ok e h ∧ h.isNA e = false := by
  let h₁ : Heap := (Call.newContext .default).op.after {}
  let h₂ : Heap := (Call.newString ⟨0⟩ "a").op.after h₁
  let h₃ : Heap := (Call.newVector ⟨0⟩ .str [.str ⟨0⟩]).op.after h₂
  let h₄ : Heap := (Call.promote ⟨0⟩).op.after h₃
  let h₅ : Heap := (Call.setCapacity ⟨0⟩ 2).op.after h₄
  have run : Run Distinct {} [h₄, h₃, h₂, h₁, {}] h₅ := by
    refine ((((Run.start.step ?_).step ?_).step ?_).step ?_).step ?_
    · exact .answer (.newContext .default) ⟨by decide, by simp⟩ rfl
    · exact .answer (.newString ⟨0⟩ "a") ⟨by decide +kernel, by simp⟩
        (Op.run_of_ok (by decide +kernel))
    · exact .answer (.newVector ⟨0⟩ .str [.str ⟨0⟩]) ⟨by decide +kernel, by simp⟩
        (Op.run_of_ok (by decide +kernel))
    · exact .answer (.promote ⟨0⟩) ⟨by decide +kernel, by simp⟩ (Op.run_of_ok (by decide +kernel))
    · exact .answer (.setCapacity ⟨0⟩ 2) ⟨by decide +kernel, by simp⟩
        (Op.run_of_ok (by decide +kernel))
  obtain ⟨cell, found⟩ := has_vector_iff.mp (show h₅.has (.vector ⟨0⟩) = true by decide +kernel)
  have shows : h₅.sequence? ⟨0⟩ = some ⟨.str, [.str ⟨0⟩, .str ⟨1⟩], 1, true, .temporary⟩ := by
    decide +kernel
  obtain ⟨cell', found', shown⟩ := sequence_eq_some_iff.mp shows
  cases found.symm.trans found'
  have own : h₅.contextOf? (.vector ⟨0⟩) = some ⟨0⟩ := by decide +kernel
  have mine : h₅.contextOf? (.string ⟨0⟩) = some ⟨0⟩ := by decide +kernel
  obtain ⟨e, read, present⟩ := complete_after_run (i := 0) (RunIn.of_run (c := ⟨0⟩) run) found
    (by rw [contextOf?, found] at own; exact Option.some.inj own)
    (fun e he o ho => by
      rw [shown] at he
      cases List.mem_singleton.mp he
      cases ho
      exact mine)
    (congrArg Sequence.complete shown)
    (by rw [show cell.length = 1 from congrArg Sequence.length shown]; decide)
  exact ⟨_, h₅, cell, e, RunIn.of_run run, found, congrArg Sequence.complete shown,
    congrArg Sequence.slots shown, by decide +kernel, read, present⟩

/-- A handle that is drawn twice hides the first element of a complete vector behind a missing
string. -/
theorem incomplete_after_refusal :
    ∃ past h s, Run (fun _ => True) {} past h ∧ h.sequence? ⟨0⟩ = some s ∧ s.complete = true ∧
      s.elements = [.str ⟨0⟩] ∧ h.contextOf? (.vector ⟨0⟩) = some ⟨0⟩ ∧
      h.contextOf? (.string ⟨0⟩) = some ⟨0⟩ ∧ getElem ⟨0⟩ 0 h = .ok (.str ⟨1⟩) h ∧
      h.isNA (.str ⟨1⟩) = true := by
  let h₁ : Heap := (Call.newContext { handles := ⟨1, 0x8000000000000000⟩ }).op.after {}
  let h₂ : Heap := (Call.newString ⟨0⟩ "a").op.after h₁
  let h₃ : Heap := (Call.newVector ⟨0⟩ .str [.str ⟨0⟩]).op.after h₂
  let h₄ : Heap := (Call.promote ⟨0⟩).op.after h₃
  let h₅ : Heap := (Call.setCapacity ⟨0⟩ 2).op.after h₄
  have run : Run (fun _ => True) {} [h₄, h₃, h₂, h₁, {}] h₅ := by
    refine ((((Run.start.step ?_).step ?_).step ?_).step ?_).step ?_
    · exact .answer (.newContext { handles := ⟨1, 0x8000000000000000⟩ }) ⟨by decide, by simp⟩ rfl
    · exact .answer (.newString ⟨0⟩ "a") ⟨by decide +kernel, by simp⟩
        (Op.run_of_ok (by decide +kernel))
    · exact .answer (.newVector ⟨0⟩ .str [.str ⟨0⟩]) ⟨by decide +kernel, by simp⟩
        (Op.run_of_ok (by decide +kernel))
    · exact .answer (.promote ⟨0⟩) ⟨by decide +kernel, by simp⟩ (Op.run_of_ok (by decide +kernel))
    · exact .stop (.setCapacity ⟨0⟩ 2) (.panic (.registeredTwice ⟨1⟩)) ⟨by decide +kernel, by simp⟩
        (Op.run_of_error (by decide +kernel)) trivial
  have shows : h₅.sequence? ⟨0⟩ = some ⟨.str, [.str ⟨0⟩], 1, true, .temporary⟩ := by decide +kernel
  have read : getElem ⟨0⟩ 0 h₅ = .ok (.str ⟨1⟩) h₅ :=
    getElem_of_result (run_intact (intact_of_supply _) run) (by decide +kernel) (by decide +kernel)
  exact ⟨_, h₅, _, run, shows, rfl, rfl, by decide +kernel, by decide +kernel, read,
    by decide +kernel⟩

end Heap
end VectorHeap
