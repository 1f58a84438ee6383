import VectorHeap.Proofs.Heap.Change

/-! When a revised vector has taken on a sequence: one rule for managed and one for native vectors. -/
namespace VectorHeap.Heap

variable {h h' : Heap} {v : VectorId} {cell cell' : VectorCell}

theorem Revises.weaken {w : Option VectorId} (R : h.Revises w none h') (p : Option PeerId) :
    h.Revises w p h' :=
  { R with peer := fun i _ => R.peer i (by simp), counted := fun _ => R.counted rfl }

theorem Revises.fixed_eq {w : Option VectorId} {p : Option PeerId} (R : h.Revises w p h')
    (found : h.vectors.find? v = some cell) (found' : h'.vectors.find? v = some cell') :
    cell'.context = cell.context ∧ cell'.type = cell.type ∧ cell'.peer = cell.peer := by
  have same := R.vectors v
  rw [found, found'] at same
  have fixed := Option.some.inj same
  exact ⟨congrArg (·.1) fixed, congrArg (·.2.1) fixed, congrArg (·.2.2) fixed⟩

theorem updates_of_managed (I : h.Intact) (found : h.vectors.find? v = some cell)
    (R : h.Revises (some v) none h') (found' : h'.vectors.find? v = some cell') {b b' : Buffer}
    (before : cell.buffer = some b) (managed : cell'.buffer = some b') (type : b'.type = cell.type)
    (capacity : b'.capacity = cell'.capacity) (window : cell'.length ≤ cell'.capacity)
    (refs : ∀ r ∈ b'.refs, h.has r = true) :
    h.Updates v cell ⟨cell.type, b'.slots, cell'.length, cell'.complete, cell'.sharing⟩ h' where
  found := found
  revises := R.weaken _
  formed cell'' found'' := by
    cases found'.symm.trans found''
    obtain ⟨context, type', peer⟩ := R.fixed_eq found found'
    have F := I.vectors v cell found
    refine ⟨⟨fun r hr => ?_, window, fun i q hi hq => ?_, fun b'' hb'' => ?_, fun native => ?_⟩, ?_⟩
    · rw [R.has]
      rcases mem_vector_refs.mp hr with rfl | ⟨i, hi, rfl⟩ | ⟨b'', hb'', hr⟩
      · exact F.refs _ (mem_vector_refs.mpr (.inl (congrArg Ref.context context)))
      · exact F.refs _ (mem_vector_refs.mpr (.inr (.inl ⟨i, peer.symm.trans hi, rfl⟩)))
      · cases managed.symm.trans hb''
        exact refs r hr
    · rw [R.peer i (by simp)] at hq
      exact F.peer i q (peer.symm.trans hi) hq
    · cases managed.symm.trans hb''
      refine ⟨type.trans type'.symm, capacity, fun i q hi hq => ?_⟩
      rw [R.peer i (by simp)] at hq
      exact (F.managed b before).bare i q (peer.symm.trans hi) hq
    · exact absurd (managed.symm.trans native) (by simp)
    · rw [Heap.sequence, elements_managed managed, type']
  pins i q' hi hq' r hr := by
    rw [R.peer i (by simp)] at hq'
    exact (I.peers i q' hq').refs r hr

theorem updates_of_native (I : h.Intact) (found : h.vectors.find? v = some cell) {p : PeerId}
    {q q' : Peer} (hp : cell.peer = some p) (hq : h.peers.find? p = some q)
    (R : h.Revises (some v) (some p) h') (found' : h'.vectors.find? v = some cell')
    (hq' : h'.peers.find? p = some q') (native : cell'.buffer = none)
    (window : cell'.length ≤ cell'.capacity) (N : h'.Native cell' q')
    (pins : ∀ o ∈ q'.pins, h.isAlive o = true) :
    h.Updates v cell
      ⟨cell.type, h'.nativeElements cell' q', cell'.length, cell'.complete, cell'.sharing⟩ h' where
  found := found
  revises := hp ▸ R
  formed cell'' found'' := by
    cases found'.symm.trans found''
    obtain ⟨context, type', peer⟩ := R.fixed_eq found found'
    have F := I.vectors v cell found
    have hp' : cell'.peer = some p := peer.trans hp
    refine ⟨⟨fun r hr => ?_, window, fun i q'' hi hq'' => ?_, fun b hb => ?_,
      fun _ => ⟨p, q', hp', hq', N⟩⟩, ?_⟩
    · rw [R.has]
      rcases mem_vector_refs.mp hr with rfl | ⟨i, hi, rfl⟩ | ⟨b, hb, hr⟩
      · exact F.refs _ (mem_vector_refs.mpr (.inl (congrArg Ref.context context)))
      · exact F.refs _ (mem_vector_refs.mpr (.inr (.inl ⟨i, peer.symm.trans hi, rfl⟩)))
      · exact absurd (native.symm.trans hb) (by simp)
    · cases hp'.symm.trans hi
      cases hq'.symm.trans hq''
      obtain ⟨owner, unreleased⟩ := F.peer p q hp hq
      have fixed := R.peers p
      rw [hq, hq'] at fixed
      have fixed := Option.some.inj fixed
      exact ⟨(congrArg (fun f => f.2.1) fixed).trans owner,
        (congrArg (fun f => f.2.2) fixed).trans unreleased⟩
    · exact absurd (native.symm.trans hb) (by simp)
    · rw [Heap.sequence, elements_native native hp' hq', type']
  pins i q'' hi hq'' r hr := by
    cases hp.symm.trans hi
    cases hq'.symm.trans hq''
    obtain ⟨o, ho, rfl⟩ := mem_peer_refs.mp hr
    rw [has_ofObject]
    exact pins o ho

theorem Backed.of_cell {b : Backing} (B : h.Backed cell b) (context : cell'.context = cell.context)
    (type : cell'.type = cell.type) (capacity : cell'.capacity = cell.capacity) :
    h.Backed cell' b := by
  cases b <;> simp only [Backed, type, capacity, context] at B ⊢ <;> exact B

theorem Native.of_cell {q q' : Peer} (N : h.Native cell q) (context : cell'.context = cell.context)
    (type : cell'.type = cell.type) (capacity : cell'.capacity = cell.capacity)
    (same : q'.backing = q.backing ∧ q'.pins = q.pins ∧ q'.capacity = q.capacity)
    (length : q'.length = cell'.length) : h.Native cell' q' where
  length := length
  capacity := same.2.2.trans (N.capacity.trans capacity.symm)
  backed := same.1.symm ▸ N.backed.of_cell context type capacity
  switched := by rw [context, type]; exact N.switched
  indirect indirect := by
    have P := N.indirect (type ▸ indirect)
    refine ⟨by rw [same.2.1, capacity]; exact P.count, fun o ho => ?_, fun i o pin => ?_⟩
    · rw [type]
      exact P.typed o (same.2.1 ▸ ho)
    · rw [same.1]
      exact P.word i o (same.2.1 ▸ pin)
  inline inline := same.2.1.trans (N.inline (type ▸ inline))

theorem Revises.native {w : Option VectorId} {i : Option PeerId} {q : Peer} (R : h.Revises w i h')
    (N : h.Native cell q) : h'.Native cell q where
  length := N.length
  capacity := N.capacity
  backed := N.backed.transport (R.sentinels _) (fun b _ => R.buffers b)
  switched := R.switches _ _ N.switched
  indirect indirect := (N.indirect indirect).transport (N.backed.not_external indirect)
    (fun o _ _ => R.handleOf o)
  inline := N.inline

theorem Intact.pins_alive (I : h.Intact) {p : PeerId} {q : Peer} (hq : h.peers.find? p = some q) :
    ∀ o ∈ q.pins, h.isAlive o = true := fun o ho =>
  has_ofObject (h := h) o ▸ (I.peers p q hq).refs _ (mem_peer_refs.mpr ⟨o, ho, rfl⟩)

theorem updates_in_place (I : h.Intact) (found : h.vectors.find? v = some cell)
    (f : VectorCell → VectorCell) (fixed : ∀ cell, (f cell).fixed = cell.fixed)
    (slots : ∀ cell, (f cell).buffer = cell.buffer ∧ (f cell).capacity = cell.capacity ∧
      (f cell).length = cell.length) :
    h.Updates v cell
      ⟨cell.type, h.elements cell, cell.length, (f cell).complete, (f cell).sharing⟩
      (h.modifyVector v f) := by
  have R : h.Revises (some v) none (h.modifyVector v f) :=
    (Revises.refl h _ _).modifyVector v f rfl fixed
  have found' : (h.modifyVector v f).vectors.find? v = some (f cell) :=
    (h.vectors.find_modify_self v f).trans (by rw [found]; rfl)
  have F := I.vectors v cell found
  obtain ⟨buffer, capacity, length⟩ := slots cell
  cases hb : cell.buffer with
  | some b =>
    have M := F.managed b hb
    have U := updates_of_managed I found R found' hb (buffer.trans hb) M.type
      (M.capacity.trans capacity.symm) (by rw [length, capacity]; exact F.window)
      (fun r hr => F.refs r (mem_vector_refs.mpr (.inr (.inr ⟨b, hb, hr⟩))))
    rw [length] at U
    rw [elements_managed hb]
    exact U
  | none =>
    obtain ⟨p, q, hp, hq, N⟩ := F.native hb
    obtain ⟨context, type, _⟩ := R.fixed_eq found found'
    have same : (h.modifyVector v f).nativeElements (f cell) q = h.nativeElements cell q := by
      simp only [nativeElements, type, capacity]
      rfl
    have U := updates_of_native I found hp hq (R.weaken _) found' hq (buffer.trans hb)
      (by rw [length, capacity]; exact F.window)
      ((R.native N).of_cell context type capacity ⟨rfl, rfl, rfl⟩ (N.length.trans length.symm))
      (I.pins_alive hq)
    rw [length, same] at U
    rw [elements_native hb hp hq]
    exact U

theorem updates_window (I : h.Intact) (found : h.vectors.find? v = some cell) {n : Nat}
    (complete : Bool) (fits : n ≤ cell.capacity) :
    let h₁ := h.modifyVector v (fun cell => { cell with length := n, complete })
    h.Updates v cell ⟨cell.type, h.elements cell, n, complete, cell.sharing⟩
      (match cell.buffer, cell.peer with
        | none, some p => h₁.modifyPeer p (fun q => { q with length := n })
        | _, _ => h₁) := by
  intro h₁
  have R : h.Revises (some v) none h₁ := (Revises.refl h _ _).modifyVector v _ rfl (fun _ => rfl)
  have found' : h₁.vectors.find? v = some { cell with length := n, complete } :=
    (h.vectors.find_modify_self v _).trans (by rw [found]; rfl)
  have F := I.vectors v cell found
  cases hb : cell.buffer with
  | some b =>
    have M := F.managed b hb
    rw [elements_managed hb]
    exact updates_of_managed I found R found' hb hb M.type M.capacity fits
      (fun r hr => F.refs r (mem_vector_refs.mpr (.inr (.inr ⟨b, hb, hr⟩))))
  | none =>
    obtain ⟨p, q, hp, hq, N⟩ := F.native hb
    have R' : h.Revises (some v) (some p) (h₁.modifyPeer p (fun q => { q with length := n })) :=
      (R.weaken _).modifyPeer p _ rfl (fun _ => rfl)
    have hq' : (h₁.modifyPeer p (fun q => { q with length := n })).peers.find? p =
        some { q with length := n } :=
      (h.peers.find_modify_self p _).trans (by rw [hq]; rfl)
    have U := updates_of_native I found hp hq R' found' hq' hb fits
      ((R'.native N).of_cell rfl rfl rfl ⟨rfl, rfl, rfl⟩ rfl) (fun o ho => I.pins_alive hq o ho)
    rw [elements_native hb hp hq, hp]
    exact U

theorem Updates.refl (I : h.Intact) (found : h.vectors.find? v = some cell) :
    h.Updates v cell (h.sequence cell) h where
  found := found
  revises := .refl _ _ _
  formed cell' found' := by
    cases found.symm.trans found'
    exact ⟨I.vectors v cell found, rfl⟩
  pins i q _ hq := (I.peers i q hq).refs

theorem Updates.trans {h'' : Heap} {s s' : Sequence} (U : h.Updates v cell s h')
    (U' : h'.Updates v cell' s' h'') : h.Updates v cell s' h'' where
  found := U.found
  revises := by
    have R' := U'.revises
    rw [(U.revises.fixed_eq U.found U'.found).2.2] at R'
    exact U.revises.trans R'
  formed := U'.formed
  pins i q hi hq r hr := by
    have pointer := (U.revises.fixed_eq U.found U'.found).2.2.trans hi
    rw [← U.revises.has]
    exact U'.pins i q pointer hq r hr

end VectorHeap.Heap
