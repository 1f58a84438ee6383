import VectorHeap.Proofs.Contents
import VectorHeap.Proofs.Peers
import VectorHeap.Heap.Strings

/-! Native copies of strings. A copy of the text comes up under the string's peer, once. -/
namespace VectorHeap.Op

variable {h : Heap} {s : StringId} {cell : StringCell} {p : PeerId} {q : Peer}

def textual (h : Heap) (c : ContextId) (p : PeerId) (q : Peer) (backing : Backing) (n : Nat) : Heap :=
  (h.modifyPeer p (fun peer => { peer with backing, length := n, capacity := n, pins := [] })).modifyRegistry
    c (·.addContents q.handle backing)

theorem textual_peer (hq : h.peers.find? p = some q) (c : ContextId) (backing : Backing) (n : Nat) :
    (textual h c p q backing n).peers.find? p =
      some { q with backing, length := n, capacity := n, pins := [] } :=
  (h.peers.find_modify_self p _).trans (by rw [hq]; rfl)

theorem textual_meters (alive : h.has (.context cell.context) = true)
    (hq : h.peers.find? p = some q) (bare : q.backing = .unallocated) (backing : Backing) (n : Nat) :
    h.Meters cell.context (some p) (textual h cell.context p q backing n) := by
  obtain ⟨ctx, found⟩ := Heap.has_context_iff.mp alive
  refine Heap.meters_of_contents found ((h.contexts.find_modify_self _ _).trans (by rw [found]; rfl))
    hq (textual_peer hq _ backing n) (fun c' other => h.contexts.find_modify_ne _ other)
    (fun i other => h.peers.find_modify_ne _ other) ?_
  rw [bare]
  exact liveBytes_addContents _ _ _

theorem textual_change (I : h.Intact) (found : h.strings.find? s = some cell)
    (hp : cell.peer = some p) (hq : h.peers.find? p = some q) (bare : q.backing = .unallocated)
    (alive : h.has (.context cell.context) = true) {a : Address} (nonzero : a ≠ 0) {bytes : Bytes}
    (size : bytes.length = (Utf8.encode cell.text).length + 1) (n : Nat) :
    h.Change Nowhere Nowhere (textual h cell.context p q (.owned a bytes) n) := by
  have F := I.strings s cell found
  obtain ⟨owner, released, _⟩ := F.peer p q hp hq
  have R : h.Revises none (some p) (textual h cell.context p q (.owned a bytes) n) := by
    refine Heap.Revises.modifyRegistry ?_ _ _ (fun r => accounts_addContents r _ _)
    exact (Heap.Revises.refl h _ _).modifyPeer p _ rfl (fun _ => rfl)
  refine .text s cell p found hp R (textual_meters alive hq bare _ n)
    ⟨fun r hr => ?_, F.issued, fun i q' hi hq' => ?_⟩ rfl
  · rw [R.has]
    exact F.refs r hr
  · cases hp.symm.trans hi
    cases (textual_peer hq _ (.owned a bytes) n).symm.trans hq'
    exact ⟨owner, released, rfl, .inr ⟨a, bytes, rfl, nonzero, size⟩⟩

theorem materialize_performs (I : h.Intact) (found : h.strings.find? s = some cell) :
    Performs Nowhere Nowhere (materialize s) h (fun a _ => a ≠ 0)
      (fun f _ => (f = .error .contextDropped ∧ h.has (.context cell.context) = false) ∨
        (f = .error (.allocationFailure ((Utf8.encode cell.text).length + 1)) ∧
          h.Scarce ((Utf8.encode cell.text).length + 1))) := by
  unfold materialize
  refine .after .refl (string_bind found _) ?_
  refine ((ensureStringPeer_performs found).mono (fun _ _ _ => id)
    (fun _ _ _ stop => .inl stop)).bind (fun p h₁ M ⟨pointer, there⟩ => ?_)
  have I₁ := M.intact I
  obtain ⟨q, hq, _⟩ := I₁.peer_of_object pointer
  obtain ⟨p', found₁⟩ := M.string I found
  obtain ⟨_, again, hp⟩ := Option.bind_eq_some_iff.mp pointer
  cases found₁.symm.trans again
  refine .after .refl (peer_bind hq _) ?_
  rcases ((I₁.strings s _ found₁).peer p q hp hq).2.2.2 with bare | ⟨a, bytes, owned, nonzero, _⟩
  · have run := ownBlock_run (h := h₁) (Utf8.encode cell.text) ((Utf8.encode cell.text).length + 1) none
    have placed : h₁.Moves Nowhere Nowhere h₁.placed :=
      (Heap.Change.environs (h₁.revises_placed _ _) rfl).moves
    by_cases refused : h₁.Refuses ((Utf8.encode cell.text).length + 1)
    · rw [if_pos refused] at run
      refine .of_error ?_ placed (.inr ⟨rfl, M.asks.scarce refused.scarce⟩)
      rw [bare]
      exact bind_of_error run
    · rw [if_neg refused] at run
      have nonzero := h₁.placement_ne_zero ((Utf8.encode cell.text).length + 1) none
      have installed := textual_change (placed.intact I₁) (h := h₁.placed) found₁ hp hq bare
        (M.has I there) nonzero
        (Block.length_resized (Utf8.encode cell.text) ((Utf8.encode cell.text).length + 1))
        (Utf8.encode cell.text).length
      refine .of_ok ?_ (placed.trans installed.moves) nonzero
      rw [bare]
      refine (bind_of_ok run).trans ((bind_of_ok (install_run (h := h₁.placed) hq bare ..)).trans ?_)
      exact peer_bind (textual_peer (h := h₁.placed) hq cell.context _ _) _
  · refine .of_ok (a := a) ?_ .refl nonzero
    rw [owned]
    refine (peer_bind hq _).trans ?_
    rw [owned]
    rfl

end VectorHeap.Op
