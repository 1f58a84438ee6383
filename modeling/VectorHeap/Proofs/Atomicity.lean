import VectorHeap.Proofs.DataAddress
import VectorHeap.Proofs.Sparing

/-! Promotions and reallocations that stop. All that can stop them comes before the first effect on the
vector: the peer, the handles of its elements or fillers, and the block that the contents go to. From
any heap they leave what was there. -/
namespace VectorHeap
namespace Op

variable {α β : Type} {h : Heap} {answers : α → Heap → Prop} {v : VectorId} {p : PeerId}

/-- An operation that stops spares what was there. -/
def Aborts (op : Op α) (h : Heap) (answers : α → Heap → Prop) : Prop :=
  Outcome op h answers (fun _ h' => h.Conserves h')

theorem Sparing.then {x : Op β} {f : β → Op α} (first : Sparing x)
    (rest : ∀ b h₁, h.Conserves h₁ → Aborts (f b) h₁ (fun a h' => h.Conserves h₁ → answers a h')) :
    Aborts (x >>= f) h answers := by
  refine Outcome.bind (first.spares h) (fun b h₁ S => ?_)
  exact Outcome.mono (rest b h₁ S) (fun _ _ ok => ok S) (fun _ _ => S.trans)

namespace Aborts

theorem pure {a : α} (ok : answers a h) : Aborts (Pure.pure a : Op α) h answers := ok

theorem still_bind {x : Op β} {f : β → Op α} (S : Still x)
    (rest : ∀ b, x h = .ok b h → Aborts (f b) h answers) : Aborts (x >>= f) h answers := by
  refine Outcome.bind_run (fun e h' run => ?_) (fun b h' run => ?_)
  · cases (S.same h).error run
    exact .refl h
  · cases (S.same h).ok run
    exact rest b run

theorem settle {x : Op β} {f : β → Op α} {middle : β → Heap → Prop} (first : Aborts x h middle)
    (rest : ∀ b h₁, middle b h₁ → ∃ a h', f b h₁ = .ok a h' ∧ answers a h') :
    Aborts (x >>= f) h answers := by
  refine Outcome.bind first (fun b h₁ mid => ?_)
  obtain ⟨a, h', run, ok⟩ := rest b h₁ mid
  exact .of_ok run ok

theorem guard {b : Prop} [Decidable b] {f : Fault} {x : β → Op α} {y : Op α}
    (rest : ¬ b → Aborts y h answers) :
    Aborts (if b then MonadExcept.throw f >>= x else y) h answers := by
  by_cases stop : b
  · rw [if_pos stop]
    exact Heap.Conserves.refl h
  · rw [if_neg stop]
    exact rest stop

theorem retry {σ : Type} {pass : σ → Op (Pass σ α)} (keep : Heap → Prop)
    (kept : ∀ {g g' : Heap}, keep g → g.Conserves g' → keep g')
    (one : ∀ s g, keep g → Aborts (pass s) g (fun r g' => ∀ s', r = .again s' → g.Conserves g'))
    (n : Nat) (s : σ) (start : keep h) : Aborts (retry pass n s) h (fun _ _ => True) := by
  induction n generalizing s h with
  | zero => exact Heap.Conserves.refl h
  | succ n ih =>
    refine Outcome.bind (one s h start) (fun r h₁ mid => ?_)
    cases r with
    | done a => trivial
    | again s' =>
      have S := mid s' rfl
      exact Outcome.mono (ih s' (kept start S)) (fun _ _ => id) (fun _ _ => S.trans)

end Aborts

/-! ### Promotion -/

theorem install_aborts (c : ContextId) (p : PeerId) (backing : Backing) (length capacity : Nat)
    (pins : List Object) : Aborts (install c p backing length capacity pins) h (fun _ _ => True) :=
  .still_bind (.peer p) (fun _ _ => .guard (fun _ => trivial))

theorem moveOut_aborts (v : VectorId) (cell : VectorCell) (p : PeerId) (b : Buffer)
    (handles : List (Object × Handle)) :
    Aborts (moveOut v cell p b handles) h (fun _ _ => True) := by
  refine (nativeBacking_sparing cell b handles).then (fun backing h₁ _ => ?_)
  exact (install_aborts ..).settle (fun _ _ _ => ⟨_, _, rfl, fun _ => trivial⟩)

theorem promotePass_aborts (v : VectorId) (handles : List (Object × Handle)) :
    Aborts (promotePass v handles) h (fun r h' => ∀ s, r = .again s → h.Conserves h') := by
  refine (ensureVectorPeer_sparing v).then (fun p h₁ S => ?_)
  refine .still_bind (.peer p) (fun q _ => .still_bind (.vector v) (fun cell _ => ?_))
  cases cell.buffer with
  | none => exact .pure nofun
  | some b =>
    dsimp only
    split
    · refine (elementHandles_sparing v).then (fun s h₂ S₂ => ?_)
      exact .pure (fun _ S₁ _ _ => S₁.trans S₂)
    · exact (moveOut_aborts ..).settle (fun _ h₂ _ => ⟨_, _, rfl, nofun⟩)

theorem promote_aborts (v : VectorId) : Aborts (promote v) h (fun _ _ => True) := by
  refine (elementHandles_sparing v).then (fun handles h₁ _ => ?_)
  refine Outcome.mono (Aborts.retry (fun _ => True) (fun _ _ => trivial)
    (fun s g _ => promotePass_aborts v s) _ handles trivial) ?_ (fun _ _ => id)
  exact fun _ _ _ _ => trivial

/-! ### Reallocation -/

/-- The contents of a peer have room for so many slots. -/
structure Roomy (h : Heap) (p : PeerId) (width n : Nat) : Prop where
  room : n ≠ 0 → ∃ q, h.peers.find? p = some q ∧ q.backing.address ≠ 0 ∧ n ≤ q.capacity ∧
    n * width ≤ (h.contents q.backing).length

theorem resizedBacking_aborts (q : Peer) (width size : Nat) (empty : Address) :
    Aborts (resizedBacking q width size empty) h (fun b h' => h.Conserves h' ∧ h'.peers = h.peers ∧
      (size ≠ 0 → b.address ≠ 0 ∧ ∀ g : Heap, (g.contents b).length = size)) := by
  have own : ∀ (old : Bytes) (moved : Option Address), Aborts (ownBlock old size moved) h
      (fun b h' => h.Conserves h' ∧ h'.peers = h.peers ∧
        (size ≠ 0 → b.address ≠ 0 ∧ ∀ g : Heap, (g.contents b).length = size)) := by
    intro old moved
    have run := ownBlock_run (h := h) old size moved
    split at run
    · exact .of_error run (.of_same rfl rfl rfl rfl)
    · refine .of_ok run ⟨.of_same rfl rfl rfl rfl, rfl, fun _ => ⟨h.placement_ne_zero _ moved, ?_⟩⟩
      exact fun _ => Block.length_resized old size
  unfold resizedBacking
  by_cases zero : size = 0
  · rw [if_pos zero]
    exact .pure ⟨.refl h, rfl, fun some => absurd zero some⟩
  · rw [if_neg zero]
    cases q.backing with
    | owned a bytes => exact own bytes (some a)
    | external a b =>
      refine Aborts.still_bind ?_ (fun kept _ => own _ none)
      exact Still.bind .get (fun _ => .guard (.pure _))
    | empty a => exact own [] none
    | unallocated => exact own [] none

theorem reallocate_aborts (c : ContextId) (p : PeerId) (width slots : Nat) (empty : Address) :
    Aborts (reallocate c p width slots empty) h (fun _ h' => 0 < width → Roomy h' p width slots) := by
  refine .still_bind (byteSize_still width slots) (fun size sized => ?_)
  have bytes : size = width * slots := by
    rw [byteSize_run] at sized
    split at sized
    · cases sized
    · cases sized
      rfl
  refine .still_bind (.peer p) (fun q run => ?_)
  have found := eq_some_of_live run
  refine (resizedBacking_aborts q width size empty).settle (fun b h₁ made => ⟨(), _, rfl, fun wide => ?_⟩)
  obtain ⟨_, peers, filled⟩ := made
  refine ⟨fun some => ?_⟩
  obtain ⟨address, length⟩ := filled (by rw [bytes]; exact Nat.mul_ne_zero (Nat.ne_of_gt wide) some)
  refine ⟨{ q with backing := b, capacity := slots }, ?_, address, Nat.le_refl _, ?_⟩
  · refine (Store.find_modify_self _ p _).trans ?_
    change (h₁.peers.find? p).map _ = _
    rw [peers, found]
    rfl
  · exact Nat.le_of_eq (by rw [length, bytes, Nat.mul_comm])

theorem writeHandles_answers {n : Nat} (R : Roomy h p 8 n) (slot : Nat) (made : List (Object × Handle))
    (fits : made ≠ [] → slot + made.length ≤ n) : ∃ h', writeHandles p slot made h = .ok () h' := by
  by_cases none : made = []
  · subst none
    exact ⟨h, rfl⟩
  · have inside := fits none
    have some := List.length_pos_iff.mpr none
    obtain ⟨q, found, allocated, slots, bytes⟩ := R.room (by omega)
    exact ⟨_, writeHandles_run found none allocated (by omega) (by omega)⟩

theorem fillMissing_answers {n : Nat} {t : InlineType} {type : ElemType}
    (inline : InlineType.ofElemType? type = some t) (R : Roomy h p t.width n) (slot count : Nat)
    (fits : count ≠ 0 → slot + count ≤ n) : ∃ h', fillMissing p type slot count h = .ok () h' := by
  unfold fillMissing
  rw [inline]
  by_cases none : count = 0
  · exact ⟨h, by simp only [if_pos none]; rfl⟩
  · have inside := fits none
    obtain ⟨q, found, allocated, slots, bytes⟩ := R.room (by omega)
    simp only [if_neg none]
    have size : (t.encodeAll (List.replicate count t.na)).length = count * t.width := by
      rw [t.length_encodeAll, List.length_replicate]
    exact ⟨_, writeSlots_run found size t.width_pos allocated (by omega)
      (Nat.le_trans (Nat.mul_le_mul_right _ inside) bytes)⟩

theorem resizeNative_aborts {cell : VectorCell} {n : Nat} {made : List (Object × Handle)}
    (count : cell.type.isIndirect = true → made.length = n - cell.capacity) :
    Aborts (resizeNative v cell p n made) h (fun _ _ => True) := by
  refine (emptyAddress_sparing cell.context n).then (fun empty h₁ _ => ?_)
  refine (reallocate_aborts cell.context p cell.type.nativeWidth n empty).settle (fun _ h₂ moved => ?_)
  have R := moved cell.type.nativeWidth_pos
  cases inline : InlineType.ofElemType? cell.type with
  | some t =>
    obtain ⟨sort, direct⟩ := Heap.ofElemType_eq_some inline
    rw [congrArg ElemType.nativeWidth sort] at R
    obtain ⟨h₃, run⟩ := fillMissing_answers inline R cell.capacity (n - cell.capacity) (by omega)
    refine ⟨(), h₃.modifyVector v (fun cell => { cell with capacity := n }), ?_, fun _ => trivial⟩
    rw [if_neg (by rw [direct]; decide)]
    exact bind_of_ok run
  | none =>
    have indirect := Heap.ofElemType_eq_none.mp inline
    rw [ElemType.nativeWidth_indirect indirect] at R
    obtain ⟨h₃, run⟩ := writeHandles_answers R cell.capacity made (fun some => by
      have := List.length_pos_iff.mpr some
      have := count indirect
      omega)
    refine ⟨(), (h₃.modifyPeer p (fun q => { q with pins := q.pins.take n })).modifyVector v
      (fun cell => { cell with capacity := n }), ?_, fun _ => trivial⟩
    rw [if_pos indirect]
    exact bind_of_ok run

theorem capacityPass_aborts {cell : VectorCell} (found : h.vectors.find? v = some cell)
    (native : cell.buffer = none) (n : Nat) (made : List (Object × Handle)) :
    Aborts (capacityPass v n made) h (fun r h' => ∀ s, r = .again s → h.Conserves h') := by
  unfold capacityPass
  rw [Aborts, Outcome, vector_bind found, native]
  refine Aborts.guard (fun _ => .still_bind (nativePeer_still cell) (fun p _ => ?_))
  dsimp only
  split
  · refine (nativeFillers_sparing cell.context cell.type _).then (fun s h₁ S => ?_)
    exact .pure (fun S _ _ => S)
  · rename_i ready
    refine (resizeNative_aborts (fun indirect => ?_)).settle (fun _ h₁ _ => ⟨_, _, rfl, fun _ again => ?_⟩)
    · exact Decidable.byContradiction (fun differs => ready ⟨indirect, differs⟩)
    · cases again

theorem setCapacity_aborts {cell : VectorCell} (found : h.vectors.find? v = some cell)
    (native : cell.buffer = none) (n : Nat) : Aborts (setCapacity v n) h (fun _ _ => True) := by
  refine Aborts.retry (fun g => ∃ cell, g.vectors.find? v = some cell ∧ cell.buffer = none)
    ?_ ?_ _ _ ⟨cell, found, native⟩
  · rintro g g' ⟨cell, found, native⟩ S
    obtain ⟨p, found', _⟩ := S.vectors v cell found
    exact ⟨_, found', native⟩
  · rintro made g ⟨cell, found, native⟩
    exact capacityPass_aborts found native n made

theorem setCapacity_broken {cell : VectorCell} (found : h.vectors.find? v = some cell)
    (native : cell.buffer = none) (bare : cell.peer = none) (n : Nat) :
    ∃ f, setCapacity v n h = .error f h := by
  have pass : ∃ f, capacityPass v n [] h = .error f h := by
    unfold capacityPass
    rw [vector_bind found]
    by_cases below : n < cell.length
    · rw [if_pos below]
      exact ⟨_, rfl⟩
    · rw [if_neg below, native]
      unfold nativePeer
      rw [bare]
      exact ⟨_, rfl⟩
  obtain ⟨f, stopped⟩ := pass
  exact ⟨f, bind_of_error stopped⟩

end Op

namespace Heap

open Op

/-- From any heap, a promotion that stops, whatever stopped it, leaves every vector as it was but for the
peer that one without a peer may have come to: its buffer, its length, its capacity, its completeness and
its sharing state. It never stops for a native vector whose peer is there. A reallocation of a native
vector that stops leaves the vector, its peer and its contents as they were. And both leave every peer,
all foreign memory, and in every context the switches, the bytes counted and the blocks indexed. -/
theorem stopped_moves_spare {h : Heap} {v : VectorId} {cell : VectorCell}
    (found : h.vectors.find? v = some cell) :
    (∀ f h', promote v h = .error f h' → h.Conserves h' ∧
      ∀ p q, cell.peer = some p → h.peers.find? p = some q → ∃ b, cell.buffer = some b) ∧
    (∀ n f h', cell.buffer = none → setCapacity v n h = .error f h' → h.Conserves h' ∧
      h'.vectors.find? v = some cell ∧
      ∀ p q, cell.peer = some p → h.peers.find? p = some q →
        h'.peers.find? p = some q ∧ h'.contents q.backing = h.contents q.backing) := by
  constructor
  · intro f h' stopped
    refine ⟨(promote_aborts v).error stopped, fun p q pointer there => ?_⟩
    cases managed : cell.buffer with
    | some b => exact ⟨b, rfl⟩
    | none =>
      have answered := promote_native found managed pointer there
      rw [stopped] at answered
      cases answered
  · intro n f h' native stopped
    have S := (setCapacity_aborts found native n).error stopped
    refine ⟨S, ?_, fun p q _ there => ⟨S.peers p q there, S.contents q.backing⟩⟩
    obtain ⟨p', found', kept⟩ := S.vectors v cell found
    cases pointer : cell.peer with
    | some p =>
      rw [found', kept p pointer, ← pointer]
    | none =>
      obtain ⟨g, same⟩ := setCapacity_broken found native pointer n
      rw [stopped] at same
      cases same
      exact found

/-- A list of strings one of which has outlived its context, a vector whose block is refused, one for which
the sentinel is, and a native vector that is to grow beyond all words. -/
theorem spared_after_stops :
    ∃ supply past h h₁ h₂ h₃ h₄ native, Run (fun _ => True) { supply } past h ∧
      promote ⟨0⟩ h = .error (.error .contextDropped) h₁ ∧ h.Conserves h₁ ∧
      promote ⟨1⟩ h = .error (.error (.allocationFailure 4)) h₂ ∧ h.Conserves h₂ ∧
      promote ⟨2⟩ h = .error (.error (.allocationFailure 8)) h₃ ∧ h.Conserves h₃ ∧
      h.vectors.find? ⟨3⟩ = some native ∧ native.buffer = none ∧
      setCapacity ⟨3⟩ 0x4000000000000000 h = .error (.panic .multiplyOverflow) h₄ ∧
      h.Conserves h₄ ∧ h₄.vectors.find? ⟨3⟩ = some native := by
  -- the first request is granted and no other
  let supply : Nat → Nat → Option Address := fun n _ => if n = 0 then some 64 else none
  have run₁ : Run (fun _ => True) { supply } [{ supply }] _ :=
    Run.start.step (.answer (.newContext .default) ⟨by decide, by simp⟩ rfl)
  have run₂ := run₁.step (.answer (.newContext .default) ⟨by decide, by simp⟩ rfl)
  have run₃ := run₂.step (.answer (.newString ⟨1⟩ "a") ⟨by decide, by simp⟩ rfl)
  have run₄ := run₃.step (.answer (.newVector ⟨0⟩ .str [.str ⟨0⟩]) ⟨by decide, by simp⟩ rfl)
  have run₅ := run₄.step (.answer (.newVector ⟨0⟩ .int [.int 7]) ⟨by decide, by simp⟩ rfl)
  have run₆ := run₅.step (.answer (.newVector ⟨0⟩ .int []) ⟨by decide, by simp⟩ rfl)
  have run₇ := run₆.step (.answer (.newVector ⟨0⟩ .int [.int 7]) ⟨by decide, by simp⟩ rfl)
  have run₈ := run₇.step (.answer (.promote ⟨3⟩) ⟨by decide, by simp⟩
    (run_of_ok (by decide +kernel)))
  have run₉ := run₈.step (.bury [.vector ⟨0⟩, .vector ⟨1⟩, .vector ⟨2⟩, .vector ⟨3⟩] (.context ⟨1⟩)
    (by decide +kernel))
  obtain ⟨past, h, run, stop₁, stop₂, stop₃, stop₄, there⟩ : ∃ past h,
      Run (fun _ => True) { supply } past h ∧
      (promote ⟨0⟩).result h = .error (.error .contextDropped) ∧
      (promote ⟨1⟩).result h = .error (.error (.allocationFailure 4)) ∧
      (promote ⟨2⟩).result h = .error (.error (.allocationFailure 8)) ∧
      (setCapacity ⟨3⟩ 0x4000000000000000).result h = .error (.panic .multiplyOverflow) ∧
      (List.range 4).map (fun i => (h.vectors.find? ⟨i⟩).map (·.buffer.isNone)) =
        [some false, some false, some false, some true] :=
    ⟨_, _, run₉, by decide +kernel, by decide +kernel, by decide +kernel, by decide +kernel,
      by decide +kernel⟩
  simp only [List.range, List.range.loop, List.map_cons, List.map_nil, List.cons.injEq, and_true,
    Option.map_eq_some_iff] at there
  obtain ⟨⟨_, found₀, _⟩, ⟨_, found₁, _⟩, ⟨_, found₂, _⟩, native, found₃, managed⟩ := there
  have unmanaged : native.buffer = none := Option.isNone_iff_eq_none.mp managed
  have stopped := (stopped_moves_spare found₃).2 _ _ _ unmanaged (run_of_error stop₄)
  exact ⟨supply, past, h, _, _, _, _, native, run, run_of_error stop₁,
    ((stopped_moves_spare found₀).1 _ _ (run_of_error stop₁)).1, run_of_error stop₂,
    ((stopped_moves_spare found₁).1 _ _ (run_of_error stop₂)).1, run_of_error stop₃,
    ((stopped_moves_spare found₂).1 _ _ (run_of_error stop₃)).1, found₃, unmanaged,
    run_of_error stop₄, stopped.1, stopped.2.1⟩

end Heap
end VectorHeap
