import VectorHeap.Proofs.Postings

/-! The first promotion of a vector. A vector that has no peer yet gets one under the next handle; and if
its elements are stored directly, its slots are all that moves out. -/
namespace VectorHeap
namespace Heap

variable {h h' : Heap} {p : PeerId} {ctx : Context} {v : VectorId} {cell : VectorCell} {b : Buffer}
  {backing : Backing} {handles : List (Object × Handle)}

theorem ensureVectorPeer_fresh (found : h.vectors.find? v = some cell) (bare : cell.peer = none)
    (context : h.contexts.find? cell.context = some ctx)
    (free : ctx.registry.peer? ctx.registry.nextHandle = none) :
    Op.ensureVectorPeer v h = .ok h.peers.fresh
      (h.listed cell.context ctx.registry.nextHandle (.vector v) (Op.vectorSite cell)) := by
  have registered := Op.register_run context (.vector v) (Op.vectorSite cell)
  rw [free, if_neg (by simp)] at registered
  refine (Op.vector_bind found _).trans ?_
  rw [bare]
  exact Op.bind_of_ok registered

theorem context_nativeBacking (run : Op.nativeBacking cell b handles h = .ok backing h')
    (found : h.contexts.find? cell.context = some ctx) :
    ∃ sentinel, h'.contexts.find? cell.context = some { ctx with sentinel } := by
  unfold Op.nativeBacking at run
  rw [Op.bind_run, Op.byteSize_run] at run
  split at run
  · rename_i size h₁ sized
    split at sized
    · cases sized
    cases sized
    split at run
    · rw [Op.map_run] at run
      cases made : ctx.sentinel with
      | some a =>
        rw [Op.sentinel_made found made] at run
        cases run
        exact ⟨ctx.sentinel, found⟩
      | none =>
        rw [Op.sentinel_unmade found made] at run
        split at run
        · rename_i answered
          split at answered
          · cases answered
          · cases answered
            cases run
            exact ⟨_, (Store.find_modify_self _ _ _).trans (congrArg (Option.map _) found)⟩
        · cases run
    · rw [Op.ownBlock_run] at run
      split at run
      · cases run
      · cases run
        exact ⟨ctx.sentinel, found⟩
  · cases run

theorem moveOut_run (I : h.Intact) (found : h.vectors.find? v = some cell)
    (managed : cell.buffer = some b) (same : handles.map Prod.fst = Op.bufferObjects b)
    {q : Peer} (hq : h.peers.find? p = some q) (bare : q.backing = .unallocated)
    (granted : ¬ h.Refuses (Op.blockSize (cell.type.nativeWidth * cell.capacity))) :
    ∃ backing h₁, Op.nativeBacking cell b handles h = .ok backing h₁ ∧
      backing.ownedBytes = cell.type.nativeWidth * cell.capacity ∧ h.Revises none none h₁ ∧
      h₁.vectors = h.vectors ∧ h₁.peers = h.peers ∧
      Op.moveOut v cell p b handles h = .ok ⟨⟩ (Op.movedOut h₁ v cell p q backing handles) := by
  obtain ⟨backing, h₁, run, R, _, vectors, peers, backed, _, own⟩ :=
    Op.nativeBacking_run I found managed same (fun denied => granted denied.2)
  refine ⟨backing, h₁, run, backed.ownedBytes own, R, vectors, peers, (Op.bind_of_ok run).trans ?_⟩
  exact (Op.bind_of_ok (Op.install_run (peers ▸ hq) bare ..)).trans rfl

/-- What the promotion of a vector without a peer comes to, if its elements are stored directly and the
allocator grants their block. -/
theorem promote_fresh (I : h.Intact) (found : h.vectors.find? v = some cell)
    (managed : cell.buffer = some b) (bare : cell.peer = none) (direct : cell.type.isIndirect = false)
    (context : h.contexts.find? cell.context = some ctx)
    (free : ctx.registry.peer? ctx.registry.nextHandle = none)
    (granted : ¬ h.Refuses (Op.blockSize (cell.type.nativeWidth * cell.capacity))) :
    let k := ctx.registry.nextHandle
    let listed := h.listed cell.context k (.vector v) (Op.vectorSite cell)
    ∃ backing h₁ sentinel, backing.ownedBytes = cell.type.nativeWidth * cell.capacity ∧
      listed.Revises none none h₁ ∧ h₁.vectors = listed.vectors ∧ h₁.peers = listed.peers ∧
      h₁.contexts.find? cell.context =
        some { listing ctx k h.peers.fresh (Op.vectorSite cell) with sentinel } ∧
      Op.promote v h = .ok k (Op.movedOut h₁ v { cell with peer := some h.peers.fresh } h.peers.fresh
        { handle := k, owner := .vector v } backing []) := by
  intro k listed
  let cell' : VectorCell := { cell with peer := some h.peers.fresh }
  have type : b.type = cell.type := ((I.vectors v cell found).managed b managed).type
  have objects : Op.bufferObjects b = [] := Op.bufferObjects_inline (type ▸ direct)
  have own : h.contextOf? (.vector v) = some cell.context := by rw [contextOf?, found]; rfl
  have I' : listed.Intact :=
    (Growth.peer cell.context ctx (.vector v) _ context own ((peerOf_vector found).trans bare) free).intact I
  have found' : listed.vectors.find? v = some cell' :=
    (h.vectors.find_modify_self v _).trans (congrArg _ found)
  have hq : listed.peers.find? h.peers.fresh = some { handle := k, owner := .vector v } := find_listed_fresh
  have same : ([] : List (Object × Handle)).map Prod.fst = Op.bufferObjects b := objects.symm
  obtain ⟨backing, h₁, run, size, R, vectors, peers, moved⟩ := moveOut_run I' found' managed same hq rfl granted
  obtain ⟨sentinel, changed⟩ := context_nativeBacking run (context_listed context)
  refine ⟨backing, h₁, sentinel, size, R, vectors, peers, changed, ?_⟩
  have none : Op.elementHandles v h = .ok [] h := by
    refine (Op.vector_bind found _).trans ?_
    rw [managed]
    exact congrArg (Op.handlesOf · h) objects
  have pass : Op.promotePass v [] h = .ok (.done k)
      (Op.movedOut h₁ v cell' h.peers.fresh { handle := k, owner := .vector v } backing []) := by
    refine (Op.bind_of_ok (ensureVectorPeer_fresh found bare context free)).trans ?_
    refine (Op.peer_bind hq _).trans ((Op.vector_bind found' _).trans ?_)
    have stable : ¬ (cell'.type.isIndirect = true ∧ ([] : List (Object × Handle)).map Prod.fst ≠
        Op.bufferObjects b) := fun changed => Bool.false_ne_true (direct.symm.trans changed.1)
    simp only [show cell'.buffer = some b from managed, if_neg stable]
    exact Op.bind_of_ok moved
  exact (Op.bind_of_ok none).trans (Op.bind_of_ok pass)

end Heap
end VectorHeap
