import VectorHeap.Proofs.DataAddress

/-! Sizes of native contents. The bytes of a request are the width of a slot times the slots, as numbers:
what the allocator grants is what the vector gets, what it refuses is an error, and a size that no word
holds stops the operation. -/
namespace VectorHeap.Heap

open Op

variable {h : Heap} {v : VectorId} {cell : VectorCell} {n : Nat} {log : List Entry}

/-- The contents of a vector lie in a block of its own of so many bytes, and for none of them at the
sentinel of its context. -/
structure Occupies (h : Heap) (v : VectorId) (c : ContextId) (size : Nat) : Prop where
  block : size ≠ 0 → ∃ a bytes, h.backingOf (.vector v) = .owned a bytes ∧ bytes.length = size
  empty : size = 0 → ∃ a, h.backingOf (.vector v) = .empty a ∧ h.sentinelOf? c = some a

theorem Intact.occupies (I : h.Intact) (found : h.vectors.find? v = some cell)
    (native : cell.buffer = none) (domestic : h.foreign? v = none) :
    h.Occupies v cell.context (cell.type.nativeWidth * cell.capacity) := by
  obtain ⟨p, q, hp, hq, N⟩ := (I.vectors v cell found).native native
  have backing := backingOf_eq ((peerOf_vector found).trans hp) hq
  have backed := N.backed
  cases hb : q.backing with
  | unallocated =>
    rw [hb] at backed
    exact backed.elim
  | empty a =>
    rw [hb] at backed
    obtain ⟨_, shared, none⟩ := backed
    rw [none, Nat.mul_zero]
    exact ⟨fun some => absurd rfl some, fun _ => ⟨a, backing.trans hb, shared⟩⟩
  | owned a bytes =>
    rw [hb] at backed
    obtain ⟨_, size, positive⟩ := backed
    refine ⟨fun _ => ⟨a, bytes, backing.trans hb, size⟩, fun none => ?_⟩
    omega
  | external a b =>
    have external := foreign_iff_backingOf.mpr ⟨a, backing.trans hb⟩
    exact absurd (domestic.symm.trans external) (by simp)

theorem setCapacity_occupies {h' : Heap} (I : h.Intact) (found : h.vectors.find? v = some cell)
    (native : cell.buffer = none) (run : setCapacity v n h = .ok () h') (gone : h'.foreign? v = none) :
    ∃ cell', h'.vectors.find? v = some cell' ∧ cell'.buffer = none ∧ cell'.capacity = n ∧
      h'.Occupies v cell.context (cell.type.nativeWidth * n) := by
  have there : h.has (.vector v) = true := has_vector_iff.mpr ⟨cell, found⟩
  obtain ⟨M, low, es, count, _, shows⟩ := (setCapacity_performs I found n).ok run
  have I' := M.intact I
  obtain ⟨cell', found', same⟩ := sequence_eq_some_iff.mp shows
  have type : cell'.type = cell.type := congrArg Sequence.type same
  have context : cell'.context = cell.context := by
    have own := M.contextOf I (o := .vector v) (by rw [Heap.contextOf?, found]; rfl)
    rw [Heap.contextOf?, found'] at own
    exact Option.some.inj own
  have ended : h.Ended (.setCapacity v n) h' true := .answer run
  have steady := ended.steadies I ⟨by simpa [Call.refs] using there, by simp⟩
  have native' := (I'.native_iff found').mpr
    (steady.native _ ((Store.contains_iff _ v).mpr ⟨cell', found'⟩) ((I.native_iff found).mp native))
  have slots : cell'.capacity = n := by
    have length := congrArg (fun s => s.slots.length) same
    have before := (I.vectors v cell found).length_elements
    have after := (I'.vectors v cell' found').length_elements
    simp only [Sequence.resize, List.length_append, List.length_take, count, sequence, before,
      after] at length
    omega
  have occupied := I'.occupies found' native' gone
  rw [type, context, slots] at occupied
  exact ⟨cell', found', native', slots, occupied⟩

/-- In every reachable state, for every native vector of an inline type and every capacity that is not below
its length: if the allocator grants what the slots take then the capacity is set, and the contents have the
bytes of a slot times the slots; if it refuses a size that a word holds then the allocation fails; and from
where no word holds the size on the operation stops with an overflow. In neither case anything changes, but
that the allocator may have been asked. -/
theorem native_size_after_run {supply : Nat → Nat → Option Address} (run : Logged { supply } log h)
    (found : h.vectors.find? v = some cell) (native : cell.buffer = none)
    (direct : cell.type.isIndirect = false) (low : cell.length ≤ n) :
    (¬ Denied h cell.context (cell.type.nativeWidth * n) → ∃ h' cell', setCapacity v n h = .ok () h' ∧
      h'.vectors.find? v = some cell' ∧ cell'.buffer = none ∧ cell'.capacity = n ∧
      h'.Occupies v cell.context (cell.type.nativeWidth * n)) ∧
    (Denied h cell.context (cell.type.nativeWidth * n) → cell.type.nativeWidth * n < UInt64.size →
      setCapacity v n h =
        .error (.error (.allocationFailure (blockSize (cell.type.nativeWidth * n)))) h.placed) ∧
    (UInt64.size ≤ cell.type.nativeWidth * n → setCapacity v n h = .error (.panic .multiplyOverflow) h) := by
  have I := run.intact (intact_of_supply supply)
  obtain ⟨p, q, hp, hq, N⟩ := (I.vectors v cell found).native native
  have refused := setCapacity_denied I found native hp hq N direct low
  refine ⟨fun granted => ?_, fun denied word => ?_, fun overflow => ?_⟩
  · obtain ⟨h', answered, gone⟩ := setCapacity_inline I found native hp hq N direct low granted
    obtain ⟨cell', shown⟩ := setCapacity_occupies I found native answered gone
    exact ⟨h', cell', answered, shown⟩
  · rw [refused denied, refusal, if_neg (Nat.not_le.mpr word)]
  · rw [refused (denied_of_overflow overflow), refusal, if_pos overflow]

theorem promoted_reached : ∃ log h cell, Logged {} log h ∧ h.vectors.find? ⟨0⟩ = some cell ∧
    cell.context = ⟨0⟩ ∧ cell.type = .int ∧ cell.buffer = none ∧ cell.length = 1 ∧
    h.grants = Block.ample := by
  have run₁ : Logged {} [⟨{}, .newContext .default, true⟩] _ :=
    Logged.start.call (.newContext .default) ⟨by decide, by simp⟩ (.answer rfl)
  have run₂ := run₁.call (.newVector ⟨0⟩ .int [.int 1]) ⟨by decide, by simp⟩ (.answer rfl)
  have run₃ := run₂.call (.promote ⟨0⟩) ⟨by decide, by simp⟩ (.answer (run_of_ok rfl))
  refine ⟨_, _, _, run₃, rfl, rfl, rfl, rfl, rfl, funext (fun bytes => ?_)⟩
  change (if Block.ample bytes = true then some 128 else none).isSome = Block.ample bytes
  cases Block.ample bytes <;> rfl

/-- Three slots take twelve bytes, and there are requests beyond memory and beyond words. -/
theorem native_size_after_promotion :
    ∃ log h, Logged {} log h ∧ (∃ h', setCapacity ⟨0⟩ 3 h = .ok () h' ∧ h'.Occupies ⟨0⟩ ⟨0⟩ 12) ∧
      setCapacity ⟨0⟩ 0x1000000000000000 h =
        .error (.error (.allocationFailure 0x4000000000000000)) h.placed ∧
      setCapacity ⟨0⟩ 0x4000000000000000 h = .error (.panic .multiplyOverflow) h := by
  obtain ⟨log, h, cell, run, found, context, type, native, length, ample⟩ := promoted_reached
  have sizes := fun n (low : 1 ≤ n) =>
    native_size_after_run (n := n) run found native (by rw [type]; rfl) (length ▸ low)
  rw [type, context] at sizes
  have refusals : ∀ bytes, h.Refuses bytes ↔ Block.Refused Block.ample bytes := fun bytes => by
    rw [← ample]
  have granted : ¬ Denied h ⟨0⟩ (ElemType.int.nativeWidth * 3) := fun denied =>
    absurd ((refusals _).mp denied.2) (by decide)
  have denied : Denied h ⟨0⟩ (ElemType.int.nativeWidth * 0x1000000000000000) :=
    ⟨fun none => absurd none (by decide), (refusals _).mpr (by decide)⟩
  refine ⟨log, h, run, ?_, (sizes _ (by decide)).2.1 denied (by decide),
    (sizes _ (by decide)).2.2 (by decide)⟩
  obtain ⟨h', _, answered, _, _, _, occupied⟩ := (sizes 3 (by decide)).1 granted
  exact ⟨h', answered, occupied⟩

/-- A capacity that fits a word and is not below the length, but stops with an overflow. -/
theorem native_size_overflows :
    ∃ log h cell n, Logged {} log h ∧ h.vectors.find? ⟨0⟩ = some cell ∧ cell.buffer = none ∧
      cell.type.isIndirect = false ∧ cell.length ≤ n ∧ n < UInt64.size ∧
      setCapacity ⟨0⟩ n h = .error (.panic .multiplyOverflow) h := by
  obtain ⟨log, h, cell, run, found, _, type, native, length, _⟩ := promoted_reached
  have direct : cell.type.isIndirect = false := by rw [type]; rfl
  have low : cell.length ≤ 0x4000000000000000 := by rw [length]; decide
  have I := run.intact (intact_of_supply _)
  obtain ⟨p, q, hp, hq, N⟩ := (I.vectors _ cell found).native native
  have overflow : UInt64.size ≤ cell.type.nativeWidth * 0x4000000000000000 := by rw [type]; decide
  have stopped := setCapacity_denied I found native hp hq N direct low (denied_of_overflow overflow)
  rw [refusal, if_pos overflow] at stopped
  exact ⟨log, h, cell, 0x4000000000000000, run, found, native, direct, low, by decide, stopped⟩

end VectorHeap.Heap
