import VectorHeap.Proofs.Run

/-! Where the contents of a vector are. Whatever was done so far, and whatever stopped, a vector is
either managed or native; its sizes, its pins and its handles agree; and so no access goes astray. -/
namespace VectorHeap

namespace Heap

structure Holding (h : Heap) (cell : VectorCell) (q : Peer) : Prop where
  length : q.length = cell.length
  capacity : q.capacity = cell.capacity
  owned : ∀ address bytes, q.backing = .owned address bytes →
    bytes.length = cell.type.nativeWidth * cell.capacity ∧ 0 < bytes.length
  empty : ∀ address, q.backing = .empty address →
    h.sentinelOf? cell.context = some address ∧ cell.capacity = 0
  external : ∀ address b, q.backing = .external address b → cell.type.isIndirect = false
  pinned : cell.type.isIndirect = true → q.pins.length = cell.capacity
  words : cell.type.isIndirect = true → ∀ i o, q.pins[i]? = some o →
    (h.handleOf o).isSome = true ∧ (h.contents q.backing).slot 8 i = Op.handleBytes (h.handleOf o)

/-- Where the contents of a vector are, and that what is kept twice agrees. -/
structure Represented (h : Heap) (v : VectorId) (cell : VectorCell) : Prop where
  side : cell.buffer.isSome = !(h.backingOf (.vector v)).isAllocated
  window : cell.length ≤ cell.capacity
  managed : ∀ b, cell.buffer = some b → b.capacity = cell.capacity
  native : cell.buffer = none →
    ∃ p q, cell.peer = some p ∧ h.peers.find? p = some q ∧ h.Holding cell q
  inline : cell.type.isIndirect = false → ∀ p q, cell.peer = some p → h.peers.find? p = some q →
    q.pins = []

variable {h : Heap} {v : VectorId} {cell : VectorCell}

theorem Backed.isAllocated {b : Backing} (B : h.Backed cell b) : b.isAllocated = true := by
  cases b with
  | unallocated => exact B.elim
  | _ => rfl

theorem Native.holding {q : Peer} (N : h.Native cell q) : h.Holding cell q where
  length := N.length
  capacity := N.capacity
  owned a bytes owned := by
    have B := N.backed
    rw [owned] at B
    exact ⟨B.2.1, B.2.2⟩
  empty a empty := by
    have B := N.backed
    rw [empty] at B
    exact ⟨B.2.1, B.2.2⟩
  external a b external := by
    have B := N.backed
    rw [external] at B
    exact B.2.1
  pinned indirect := (N.indirect indirect).count
  words indirect := (N.indirect indirect).word

theorem VectorFormed.represented (F : h.VectorFormed v cell)
    (found : h.vectors.find? v = some cell) : h.Represented v cell := by
  have bare : ∀ b p q, cell.buffer = some b → cell.peer = some p → h.peers.find? p = some q →
      q.backing = .unallocated ∧ q.pins = [] := fun b p q hb => (F.managed b hb).bare p q
  refine
    { side := ?_, window := F.window, managed := fun b hb => (F.managed b hb).capacity,
      native := fun hb => ?_, inline := fun inline p q hp hq => ?_ }
  · cases hb : cell.buffer with
    | none =>
      obtain ⟨p, q, hp, hq, N⟩ := F.native hb
      rw [backingOf_eq ((peerOf_vector found).trans hp) hq, N.backed.isAllocated]
      rfl
    | some b =>
      cases hp : cell.peer with
      | none =>
        simp only [backingOf, peerOf_vector found, hp, Option.bind_none]
        rfl
      | some p =>
        obtain ⟨q, hq⟩ := has_peer_iff.mp
          (F.refs _ (mem_vector_refs.mpr (.inr (.inl ⟨p, hp, rfl⟩))))
        rw [backingOf_eq ((peerOf_vector found).trans hp) hq, (bare b p q hb hp hq).1]
        rfl
  · obtain ⟨p, q, hp, hq, N⟩ := F.native hb
    exact ⟨p, q, hp, hq, N.holding⟩
  · cases hb : cell.buffer with
    | some b => exact (bare b p q hb hp hq).2
    | none =>
      obtain ⟨p', q', hp', hq', N⟩ := F.native hb
      cases hp.symm.trans hp'
      cases hq.symm.trans hq'
      exact N.inline inline

/-- After any run every vector is well represented, and no call breaks an assertion about contents
or accesses memory outside of them. -/
theorem represented_after_run {supply : Nat → Nat → Option Address} {past : List Heap}
    (run : Run (fun _ => True) { supply } past h) :
    (∀ v cell, h.vectors.find? v = some cell → h.Represented v cell) ∧
      ∀ call : Call, call.Admissible h → ∀ f h', call.op h = .error f h' → f.isBreach = false := by
  have I := run_intact (intact_of_supply supply) run
  refine ⟨fun v cell found => (I.vectors v cell found).represented found, ?_⟩
  intro call ok f h' stopped
  rcases (call.ends I ok).error stopped with ⟨proper, _⟩ | ⟨⟨k, rfl⟩, _⟩
  · exact Fault.isBreach_of_isProper proper
  · rfl

/-- A vector of one string that was promoted. -/
theorem represented_after_promotion :
    ∃ past h cell, Run (fun _ => True) {} past h ∧ h.vectors.find? ⟨0⟩ = some cell ∧
      cell.buffer = none ∧ cell.type = .str ∧ h.Represented ⟨0⟩ cell := by
  have run₁ : Run (fun _ => True) {} [{}] _ :=
    Run.start.step (.answer (.newContext .default) ⟨by decide, by simp⟩ rfl)
  have run₂ := run₁.step (.answer (.newString ⟨0⟩ "a") ⟨by decide, by simp⟩ rfl)
  have run₃ := run₂.step (.answer (.newVector ⟨0⟩ .str [.str ⟨0⟩]) ⟨by decide, by simp⟩ rfl)
  have run₄ := run₃.step (.answer (.promote ⟨0⟩) ⟨by decide, by simp⟩ rfl)
  refine ⟨_, _, _, run₄, rfl, rfl, rfl, ?_⟩
  exact (represented_after_run run₄).1 _ _ rfl

end Heap
end VectorHeap
