import VectorHeap.Proofs.Peers
import VectorHeap.Vector.Construction

/-! Making strings and vectors. -/
namespace VectorHeap

namespace Heap

def naString? (h : Heap) (c : ContextId) : Option StringId :=
  (h.contexts.find? c).bind (·.naString)

def isComplete (h : Heap) (b : Buffer) (length : Nat) : Bool :=
  decide (b.type = .raw ∨ b.type = .list) || !(b.slots.take length).any h.isNA

theorem isNA_of_isComplete {h : Heap} {b : Buffer} {length : Nat}
    (complete : h.isComplete b length = true) {e : Elem} (he : e ∈ b.slots.take length) :
    h.isNA e = false := by
  rcases (Bool.or_eq_true _ _).mp complete with untyped | present
  · have type := b.typed e (List.mem_of_mem_take he)
    rcases of_decide_eq_true untyped with raw | list
    · cases e <;> first | rfl | exact absurd (type.trans raw) (by simp [Elem.type])
    · cases e <;> first | rfl | exact absurd (type.trans list) (by simp [Elem.type])
  · exact Bool.eq_false_iff.mpr (List.any_eq_false.mp ((Bool.not_eq_true' _).mp present) e he)

def cellOver (h : Heap) (c : ContextId) (b : Buffer) (length : Nat) : VectorCell :=
  { context := c, type := b.type, length, capacity := b.capacity,
    complete := h.isComplete b length, buffer := some b }

/-- What is in a slot of a context that nothing was stored in. -/
def IsFiller (h : Heap) (c : ContextId) (type : ElemType) (e : Elem) : Prop :=
  match InlineType.ofElemType? type, e with
  | some t, e => e = .ofValue t t.na
  | none, .str s => type = .str ∧ h.naString? c = some s
  | none, .list v => type = .list ∧ h.contextOf? (.vector v) = some c ∧
    h.sequence? v = some ⟨.list, [], 0, true, .temporary⟩ ∧ h.foreign? v = none
  | none, _ => False

/-- Elements for new slots, made between two heaps. Lists are new and each is in one slot. -/
structure Fillers (h h' : Heap) (c : ContextId) (type : ElemType) (es : List Elem) : Prop where
  fillers : ∀ e ∈ es, h'.IsFiller c type e
  new : ∀ v, .list v ∈ es → h.has (.vector v) = false
  single : type = .list → es.Nodup

end Heap

namespace Op

variable {h : Heap} {T : VectorId → Prop} {B : BufferId → Prop} {stops : Fault → Heap → Prop}

open Heap (has_context_iff has_vector_iff)

/-! ### Strings -/

theorem newString_performs {c : ContextId} (alive : h.has (.context c) = true) (text : String) :
    Performs T B (newString c text) h
      (fun s h' => h.has (.string s) = false ∧ h'.strings.find? s = some { context := c, text })
      stops := by
  refine .of_ok rfl (Heap.Change.growth (.string { context := c, text } rfl alive)).moves ⟨?_, ?_⟩
  · exact Bool.eq_false_iff.mpr (fun there => by
      obtain ⟨cell, found⟩ := (Store.contains_iff _ _).mp there
      exact absurd (h.strings.find_fresh.symm.trans found) (by simp))
  · exact h.strings.find_add_fresh _

theorem naString_performs (I : h.Intact) {c : ContextId} (alive : h.has (.context c) = true) :
    Performs T B (naString c) h
      (fun s h' => h'.naString? c = some s ∧ h'.contextOf? (.string s) = some c ∧
        h'.isNA (.str s) = true) stops := by
  obtain ⟨ctx, found⟩ := has_context_iff.mp alive
  have run : naString c h = _ := context_bind found _
  cases hs : ctx.naString with
  | some s =>
    rw [hs] at run
    obtain ⟨cell, hcell⟩ := Heap.has_string_iff.mp
      ((I.contexts c ctx found).refs _ (Heap.mem_context_refs.mpr (.inl ⟨s, hs, rfl⟩)))
    obtain ⟨own, na⟩ := (I.contexts c ctx found).naString s cell hs hcell
    refine .of_ok run .refl ⟨?_, ?_, ?_⟩
    · rw [Heap.naString?, found]; exact hs
    · rw [Heap.contextOf?, hcell]; exact congrArg some own
    · rw [Heap.isNA, hcell]; exact na
  | none =>
    rw [hs] at run
    let cell : StringCell := { context := c, text := "NA", isNA := true }
    let h₁ : Heap := { h with strings := h.strings.add cell }
    have there : h₁.strings.find? h.strings.fresh = some cell := h.strings.find_add_fresh _
    have first : h.Moves T B h₁ := (Heap.Change.growth (.string cell rfl alive)).moves
    have named : h₁.Growth (h₁.nameNA c h.strings.fresh) :=
      .naString c ctx h.strings.fresh cell found hs there rfl rfl
    have second : h₁.Moves T B (h₁.nameNA c h.strings.fresh) := (Heap.Change.growth named).moves
    refine .of_ok run (first.trans second) ⟨?_, ?_, ?_⟩
    · change ((h.contexts.modify c _).find? c).bind _ = _
      rw [Store.find_modify_self, found]
      rfl
    · change (h₁.strings.find? _).map _ = _
      rw [there]
      rfl
    · change ((h₁.strings.find? _).map _).getD _ = _
      rw [there]
      rfl

/-! ### Vectors over buffers -/

theorem complete_eq {b : Buffer} {length : Nat} (fits : length ≤ b.capacity) :
    b.complete? h.isNA length = .ok (h.isComplete b length) := by
  unfold Buffer.complete? Heap.isComplete
  by_cases untyped : b.type = .raw ∨ b.type = .list
  · simp only [untyped, if_true, decide_true, Bool.true_or]
  · simp only [untyped, if_false, decide_false, Bool.false_or, Buffer.take?, if_pos fits]
    rfl

theorem overBuffer_run (c : ContextId) {b : Buffer} {length : Nat} (fits : length ≤ b.capacity) :
    overBuffer c b length h = .ok h.vectors.fresh
      { h with vectors := h.vectors.add (h.cellOver c b length) } := by
  unfold overBuffer
  rw [get_bind, complete_eq fits]
  rfl

def Holds (h : Heap) (b : Buffer) : Prop := ∀ r ∈ b.refs, h.has r = true

theorem addable_over {c : ContextId} {b : Buffer} {length : Nat}
    (alive : h.has (.context c) = true) (holds : Holds h b) (fits : length ≤ b.capacity) :
    h.Addable (h.cellOver c b length) b where
  buffer := rfl
  peer := rfl
  type := rfl
  capacity := rfl
  window := fits
  refs r hr := by
    rcases Heap.mem_vector_refs.mp hr with rfl | ⟨p, hp, rfl⟩ | ⟨b', hb', hr⟩
    · exact alive
    · exact absurd hp (by simp [Heap.cellOver])
    · cases hb'
      exact holds r hr
  temporary := rfl
  complete complete _ := Heap.isNA_of_isComplete complete

/-- A new vector of a context, and what it shows. -/
structure Made (h h' : Heap) (c : ContextId) (v : VectorId) (s : Sequence) : Prop where
  new : h.has (.vector v) = false
  own : h'.contextOf? (.vector v) = some c
  sequence : h'.sequence? v = some s
  foreign : h'.foreign? v = none

theorem fresh_not_there : h.has (.vector h.vectors.fresh) = false :=
  Bool.eq_false_iff.mpr (fun there => by
    obtain ⟨cell, found⟩ := has_vector_iff.mp there
    exact absurd (h.vectors.find_fresh.symm.trans found) (by simp))

theorem made_over (c : ContextId) (b : Buffer) (length : Nat) :
    Made h { h with vectors := h.vectors.add (h.cellOver c b length) } c h.vectors.fresh
      ⟨b.type, b.slots, length, h.isComplete b length, .temporary⟩ := by
  let h' : Heap := { h with vectors := h.vectors.add (h.cellOver c b length) }
  have there : h'.vectors.find? h.vectors.fresh = some (h.cellOver c b length) :=
    h.vectors.find_add_fresh _
  have bare : h'.peerOf? (.vector h.vectors.fresh) = none := Heap.peerOf_vector there
  refine ⟨fresh_not_there, ?_, ?_, ?_⟩
  · change (h'.vectors.find? _).map _ = _
    rw [there]
    rfl
  · exact Heap.sequence_eq_some_iff.mpr ⟨_, there, rfl⟩
  · change h'.foreign? _ = none
    rw [Heap.foreign?, Heap.backingOf, bare]
    rfl

theorem overBuffer_performs {c : ContextId} {b : Buffer} {length : Nat}
    (alive : h.has (.context c) = true) (holds : Holds h b) (fits : length ≤ b.capacity) :
    Performs T B (overBuffer c b length) h
      (fun v h' => Made h h' c v ⟨b.type, b.slots, length, h.isComplete b length, .temporary⟩)
      stops :=
  .of_ok (overBuffer_run c fits)
    (Heap.Change.growth (.vector _ b (addable_over alive holds fits))).moves (made_over c b length)

theorem newVector_performs {c : ContextId} {b : Buffer} (alive : h.has (.context c) = true)
    (holds : Holds h b) :
    Performs T B (newVector c b) h
      (fun v h' => Made h h' c v ⟨b.type, b.slots, b.capacity, h.isComplete b b.capacity, .temporary⟩)
      stops :=
  overBuffer_performs alive holds (Nat.le_refl _)

theorem holds_empty (type : ElemType) : Holds h (.empty type) := by
  intro r hr
  obtain ⟨e, he, _⟩ := Heap.mem_buffer_refs.mp hr
  exact absurd he (by simp [Buffer.empty])

theorem emptyList_performs {c : ContextId} (alive : h.has (.context c) = true) :
    Performs T B (emptyList c) h
      (fun v h' => Made h h' c v ⟨.list, [], 0, true, .temporary⟩) stops :=
  newVector_performs alive (holds_empty .list)

/-! ### Fillers -/

theorem Made.later {h₁ h' : Heap} {c : ContextId} {v : VectorId} {s : Sequence} (M : Made h h₁ c v s)
    (I : h₁.Intact) (rest : h₁.Moves Nowhere Nowhere h') : Made h h' c v s := by
  obtain ⟨sequence, foreign⟩ := rest.untouched I (w := v) id (fun _ _ => id) M.sequence
  exact ⟨M.new, rest.contextOf I M.own, sequence, foreign.trans M.foreign⟩

theorem Moves_not_there {h₁ : Heap} (I : h.Intact) (M : h.Moves T B h₁) {r : Ref}
    (new : h₁.has r = false) : h.has r = false :=
  Bool.eq_false_iff.mpr (fun there => absurd ((M.has I there).symm.trans new) (by decide))

theorem emptyLists_performs (I : h.Intact) {c : ContextId} (alive : h.has (.context c) = true)
    (n : Nat) :
    Performs Nowhere Nowhere (emptyLists c n) h
      (fun vs h' => vs.length = n ∧ vs.Nodup ∧
        ∀ v ∈ vs, Made h h' c v ⟨.list, [], 0, true, .temporary⟩) stops := by
  induction n generalizing h with
  | zero => exact .pure ⟨rfl, .nil, by simp⟩
  | succ n ih =>
    refine (emptyList_performs alive).bind (fun v h₁ M made => ?_)
    refine (ih (M.intact I) (M.has I alive)).bind (fun vs h' M' ⟨length, nodup, all⟩ => ?_)
    refine .pure ⟨congrArg Nat.succ length, List.nodup_cons.mpr ⟨fun twice => ?_, nodup⟩, ?_⟩
    · obtain ⟨cell, found, _⟩ := Heap.sequence_eq_some_iff.mp made.sequence
      have there := has_vector_iff.mpr ⟨cell, found⟩
      exact absurd (there.symm.trans (all v twice).new) (by decide)
    · intro w hw
      rcases List.mem_cons.mp hw with rfl | hw
      · exact made.later (M.intact I) M'
      · exact { all w hw with new := Moves_not_there I M (all w hw).new }

end Op

namespace Heap

variable {h h' : Heap} {c : ContextId} {type : ElemType} {e : Elem}

theorem IsFiller.type_eq (F : h.IsFiller c type e) : e.type = type := by
  unfold IsFiller at F
  split at F
  · rename_i inline
    rw [F, Elem.type_ofValue]
    exact (ofElemType_eq_some inline).1.symm
  · exact F.1.symm
  · exact F.1.symm
  · exact F.elim

theorem Fillers.inline {t : InlineType} (inline : InlineType.ofElemType? type = some t)
    (count : Nat) : h.Fillers h' c type (List.replicate count (.ofValue t t.na)) where
  fillers e he := by
    rw [List.eq_of_mem_replicate he]
    simp only [IsFiller, inline]
  new v hv := by
    have object := object_ofValue t t.na
    rw [← List.eq_of_mem_replicate hv] at object
    exact absurd object (by simp [Elem.object?])
  single list := by
    rw [list] at inline
    exact absurd inline (by simp [InlineType.ofElemType?])

/-- Only lists are told apart among what fills new slots. -/
theorem IsFiller.unique {e' : Elem} (plain : type ≠ .list) (F : h.IsFiller c type e)
    (F' : h.IsFiller c type e') : e = e' := by
  unfold IsFiller at F F'
  cases inline : InlineType.ofElemType? type with
  | some t =>
    simp only [inline] at F F'
    rw [F, F']
  | none =>
    simp only [inline] at F F'
    cases e <;> cases e' <;> simp_all

theorem Fillers.unique {es es' : List Elem} (plain : type ≠ .list) (F : h.Fillers h' c type es)
    (F' : h.Fillers h' c type es') (count : es.length = es'.length) : es = es' :=
  List.ext_getElem count (fun _ here here' => (F.fillers _ (List.getElem_mem here)).unique plain
    (F'.fillers _ (List.getElem_mem here')))

theorem IsFiller.own (I : h.Intact) (F : h.IsFiller c type e) {o : Object}
    (ho : e.object? = some o) : h.contextOf? o = some c := by
  unfold IsFiller at F
  split at F
  · rw [F, object_ofValue] at ho
    exact absurd ho (by simp)
  · rename_i s _
    cases ho
    obtain ⟨ctx, found, hs⟩ := Option.bind_eq_some_iff.mp F.2
    obtain ⟨cell, hcell⟩ := has_string_iff.mp
      ((I.contexts c ctx found).refs _ (mem_context_refs.mpr (.inl ⟨s, hs, rfl⟩)))
    rw [contextOf?, hcell]
    exact congrArg some ((I.contexts c ctx found).naString s cell hs hcell).1
  · cases ho
    exact F.2.1
  · exact F.elim

end Heap

namespace Op

variable {h : Heap} {stops : Fault → Heap → Prop}

theorem fillers_performs (I : h.Intact) {c : ContextId} (alive : h.has (.context c) = true)
    (type : ElemType) (count : Nat) :
    Performs Nowhere Nowhere (fillers c type count) h
      (fun es h' => es.length = count ∧ h.Fillers h' c type es) stops := by
  unfold fillers
  cases inline : InlineType.ofElemType? type with
  | some t => exact .pure ⟨List.length_replicate, .inline inline count⟩
  | none =>
    by_cases zero : count = 0
    · subst zero
      exact .pure ⟨rfl, by simp, by simp, fun _ => .nil⟩
    · by_cases str : type = .str
      · simp only [zero, str, if_false, if_true]
        refine (naString_performs I alive).bind ?_
        rintro s h' M ⟨named, _, _⟩
        refine .pure ⟨List.length_replicate, fun e he => ?_, fun v hv => ?_, by simp⟩
        · rw [List.eq_of_mem_replicate he]
          exact ⟨rfl, named⟩
        · exact absurd (List.eq_of_mem_replicate hv) (by simp)
      · have list : type = .list := by cases type <;> simp_all [InlineType.ofElemType?]
        simp only [zero, str, if_false]
        refine (emptyLists_performs I alive count).bind ?_
        rintro vs h' M ⟨length, nodup, all⟩
        refine .pure ⟨by rw [List.length_map, length], fun e he => ?_, fun v hv => ?_, fun _ => ?_⟩
        · obtain ⟨v, hv, rfl⟩ := List.mem_map.mp he
          simp only [Heap.IsFiller, inline]
          exact ⟨list, (all v hv).own, (all v hv).sequence, (all v hv).foreign⟩
        · obtain ⟨w, hw, same⟩ := List.mem_map.mp hv
          cases same
          exact (all v hw).new
        · exact List.Pairwise.map _ (fun _ _ other same => other (Elem.list.inj same)) nodup

theorem resizeBuffer_performs (I : h.Intact) {c : ContextId} (alive : h.has (.context c) = true)
    (b : Buffer) (n : Nat) :
    Performs Nowhere Nowhere (resizeBuffer c b n) h
      (fun b' h' => ∃ new, new.length = n - b.capacity ∧ h.Fillers h' c b.type new ∧
        b'.type = b.type ∧ b'.slots = b.slots.take n ++ new)
      (fun f _ => f = .panic .capacityOverflow ∧ b.capacity < n ∧
        Buffer.maxBytes < n * b.type.managedWidth) := by
  unfold resizeBuffer
  by_cases huge : b.capacity < n ∧ Buffer.maxBytes < n * b.type.managedWidth
  · refine .of_error ?_ .refl ⟨rfl, huge⟩
    rw [Buffer.checkGrowth, if_pos huge]
    rfl
  · rw [Buffer.checkGrowth, if_neg huge]
    refine (fillers_performs I alive b.type (n - b.capacity)).bind (fun new h' M ⟨length, F⟩ => ?_)
    have typed := b.refill_of_typed n new (fun e he => (F.fillers e he).type_eq)
    cases filled : b.refill? n new with
    | none => rw [filled] at typed; exact absurd typed (by simp)
    | some b' =>
      rw [filled, Option.map_some, Option.some.injEq] at typed
      refine .pure ⟨new, length, F, ?_, typed⟩
      unfold Buffer.refill? Buffer.ofList? at filled
      split at filled
      · cases filled
        rfl
      · exact absurd filled (by simp)

end Op

namespace Heap

variable {T : VectorId → Prop} {B : BufferId → Prop} {h h' h'' : Heap} {c : ContextId}
  {type : ElemType} {e : Elem}

theorem Change.naString (I : h.Intact) (C : Change T B h h') {s : StringId}
    (named : h.naString? c = some s) : h'.naString? c = some s := by
  obtain ⟨ctx, found, hs⟩ := Option.bind_eq_some_iff.mp named
  rcases C.extends_or_revises I with E | ⟨v, p, R⟩
  · obtain ⟨ctx', found', _, _, _, kept⟩ := E.contexts c ctx found
    exact Option.bind_eq_some_iff.mpr ⟨ctx', found', kept s hs⟩
  · obtain ⟨ctx', found', accounts⟩ := exists_of_map_eq (R.contexts c).symm found
    exact Option.bind_eq_some_iff.mpr ⟨ctx', found', (congrArg Accounts.naString accounts).symm.trans hs⟩

theorem Moves.naString (I : h.Intact) (M : Moves T B h h') {s : StringId}
    (named : h.naString? c = some s) : h'.naString? c = some s := by
  induction M with
  | refl => exact named
  | tail first last ih => exact last.naString (first.intact I) ih

theorem IsFiller.later (I : h.Intact) (M : Moves T B h h') (other : ∀ v, e = .list v → ¬ T v)
    (F : h.IsFiller c type e) : h'.IsFiller c type e := by
  unfold IsFiller at F ⊢
  split at F
  · exact F
  · exact ⟨F.1, M.naString I F.2⟩
  · rename_i v _
    obtain ⟨list, own, sequence, unforeign⟩ := F
    obtain ⟨sequence', foreign'⟩ := M.untouched I (other v rfl)
      (fun b hb => absurd (unforeign.symm.trans hb) (by simp)) sequence
    exact ⟨list, M.contextOf I own, sequence', foreign'.trans unforeign⟩
  · exact F.elim

theorem IsFiller.isNA (I : h.Intact) (F : h.IsFiller c type e) :
    h.isNA e = decide (type ≠ .raw ∧ type ≠ .list) := by
  unfold IsFiller at F
  split at F
  · rename_i _ t inline
    have value : h.isNA (.ofValue t t.na) = t.isNA t.na := by cases t <;> rfl
    rw [F, value, InlineType.isNA_na, (ofElemType_eq_some inline).1]
    cases t <;> rfl
  · rename_i s _
    obtain ⟨ctx, found, hs⟩ := Option.bind_eq_some_iff.mp F.2
    obtain ⟨cell, hcell⟩ := has_string_iff.mp
      ((I.contexts c ctx found).refs _ (mem_context_refs.mpr (.inl ⟨s, hs, rfl⟩)))
    rw [Heap.isNA, hcell, F.1]
    exact ((I.contexts c ctx found).naString s cell hs hcell).2
  · rw [F.1]
    rfl
  · exact F.elim

theorem Fillers.later {es : List Elem} (I : h'.Intact) (M : Moves T B h' h'')
    (old : ∀ v, T v → h.has (.vector v) = true) (F : h.Fillers h' c type es) :
    h.Fillers h'' c type es where
  fillers e he := (F.fillers e he).later I M (fun v hv touched => by
    subst hv
    exact absurd ((old v touched).symm.trans (F.new v he)) (by decide))
  new := F.new
  single := F.single

/-- What new slots hold is complete only if the type has no missing value or none is in use. -/
theorem isComplete_fillers (I : h.Intact) {b : Buffer} (all : ∀ e ∈ b.slots, h.IsFiller c b.type e)
    {length : Nat} (fits : length ≤ b.capacity) :
    h.isComplete b length = decide (b.type = .raw ∨ b.type = .list ∨ length = 0) := by
  by_cases zero : length = 0
  · simp [isComplete, zero]
  · cases hs : b.slots with
    | nil => simp [Buffer.capacity, hs] at fits; exact absurd fits zero
    | cons e rest =>
      obtain ⟨n, rfl⟩ := Nat.exists_eq_succ_of_ne_zero zero
      have na := (all e (by rw [hs]; exact List.mem_cons_self ..)).isNA I
      simp only [isComplete, hs, List.take_succ_cons, List.any_cons, na]
      by_cases raw : b.type = .raw
      · simp [raw]
      · by_cases list : b.type = .list <;> simp [raw, list]

end Heap

namespace Op

variable {h : Heap} {stops : Fault → Heap → Prop}

theorem holds_of_alive {b : Buffer}
    (alive : ∀ e ∈ b.slots, ∀ o, e.object? = some o → h.isAlive o = true) : Holds h b := by
  intro r hr
  obtain ⟨e, he, o, ho, rfl⟩ := Heap.mem_buffer_refs.mp hr
  rw [Heap.has_ofObject]
  exact alive e he o ho

theorem withCapacity_performs (I : h.Intact) {c : ContextId} (alive : h.has (.context c) = true)
    (type : ElemType) (length capacity : Nat) :
    Performs Nowhere Nowhere (withCapacity c type length capacity) h
      (fun v h' => ∃ es, es.length = capacity ∧ h.Fillers h' c type es ∧ length ≤ capacity ∧
        Made h h' c v ⟨type, es, length, decide (type = .raw ∨ type = .list ∨ length = 0), .temporary⟩)
      (fun f _ => (f = .error (.lengthExceedsCapacity length capacity) ∧ capacity < length) ∨
        (f = .panic .capacityOverflow ∧ Buffer.maxBytes < capacity * type.managedWidth)) := by
  unfold withCapacity
  by_cases short : capacity < length
  · refine .of_error ?_ .refl (.inl ⟨rfl, short⟩)
    rw [if_pos short]
    rfl
  · rw [if_neg short]
    refine ((resizeBuffer_performs I alive (.empty type) capacity).mono (fun _ _ _ => id)
      (fun f _ _ stop => .inr ⟨stop.1, stop.2.2⟩)).bind (fun b h₁ M ⟨es, count, F, sort, slots⟩ => ?_)
    have I₁ := M.intact I
    have slots : b.slots = es := by
      rw [slots, show (Buffer.empty type).slots = [] from rfl, List.take_nil, List.nil_append]
    have room : b.capacity = capacity := by rw [Buffer.capacity, slots, count]; rfl
    have fits : length ≤ b.capacity := by omega
    have all : ∀ e ∈ b.slots, h₁.IsFiller c b.type e := fun e he => by
      rw [sort]; exact F.fillers e (slots ▸ he)
    have holds : Holds h₁ b := holds_of_alive (fun e he o ho =>
      Heap.isAlive_iff_contextOf.mpr ⟨c, (all e he).own I₁ ho⟩)
    refine (overBuffer_performs (M.has I alive) holds fits).mono (fun v h' M' made => ?_)
      (fun f h' _ => id)
    refine ⟨es, by rw [← room, Buffer.capacity, slots], F.later I₁ M' (fun _ => False.elim), by omega, ?_⟩
    rw [Heap.isComplete_fillers I₁ all fits, sort, slots] at made
    exact { made with new := Moves_not_there I M made.new }

end Op
end VectorHeap
