import VectorHeap.Proofs.Operation

/-! Assigning peers. An object gets at most one, and its handle is some handle from then on. -/
namespace VectorHeap.Op

variable {h : Heap} {T : VectorId → Prop} {B : BufferId → Prop} {stops : Fault → Heap → Prop}

theorem register_run {c : ContextId} {ctx : Context} (found : h.contexts.find? c = some ctx)
    (o : Object) (site : String) :
    register c o site h =
      if (ctx.registry.peer? ctx.registry.nextHandle).isSome then
        .error (.panic (.registeredTwice ctx.registry.nextHandle))
          (h.entered c ctx.registry.nextHandle o site)
      else
        .ok h.peers.fresh
          ((h.entered c ctx.registry.nextHandle o site).modifyRegistry c (·.countRegistered)) := by
  unfold register
  rw [bind_run, context_run, found, live_some]
  simp only [bind_run, addPeer, modifyGet_run, modify_run, ite_run, halt_run, pure_run]
  rfl

/-- What assigning a peer comes to: the object points at its new peer, unless the handle was taken. -/
theorem performs_of_register {op : Op PeerId} {c : ContextId} {ctx : Context} {o : Object}
    (site : String) (found : h.contexts.find? c = some ctx) (own : h.contextOf? o = some c)
    (bare : h.peerOf? o = none)
    (run : op h = match register c o site h with
      | .ok p h' => .ok p (h'.point o p)
      | .error f h' => .error f h') :
    Performs T B op h (fun p h' => h'.peerOf? o = some p) stops := by
  have alive : h.isAlive o = true := Heap.isAlive_iff_contextOf.mpr ⟨c, own⟩
  rw [register_run found] at run
  cases free : ctx.registry.peer? ctx.registry.nextHandle with
  | none =>
    rw [free] at run
    refine .of_ok run (Heap.Change.growth (.peer c ctx o site found own bare free)).moves ?_
    rw [Heap.peerOf_point (by cases o <;> exact alive), if_pos rfl]
  | some p =>
    rw [free] at run
    exact Outcome.of_error run (.inr ⟨⟨_, rfl⟩, h, .refl,
      .entered h c ctx o site found (Heap.issued_of_isAlive alive) bare rfl⟩)

theorem ensureVectorPeer_performs (I : h.Intact) {v : VectorId} {cell : VectorCell}
    (found : h.vectors.find? v = some cell) :
    Performs T B (ensureVectorPeer v) h (fun p h' => h'.peerOf? (.vector v) = some p) stops := by
  have run : ensureVectorPeer v h = _ := vector_bind found _
  cases hp : cell.peer with
  | some p =>
    rw [hp] at run
    exact .of_ok run .refl ((Heap.peerOf_vector found).trans hp)
  | none =>
    rw [hp] at run
    obtain ⟨ctx, hctx⟩ := I.context_of_vector found
    refine performs_of_register (vectorSite cell) hctx (by rw [Heap.contextOf?, found]; rfl)
      ((Heap.peerOf_vector found).trans hp) (run.trans ?_)
    change (register cell.context (.vector v) (vectorSite cell) >>= _) h = _
    rw [bind_run]
    cases register cell.context (.vector v) (vectorSite cell) h <;> rfl

theorem ensureStringPeer_performs {s : StringId} {cell : StringCell}
    (found : h.strings.find? s = some cell) :
    Performs T B (ensureStringPeer s) h
      (fun p h' => h'.peerOf? (.string s) = some p ∧ h.has (.context cell.context) = true)
      (fun f _ => f = .error .contextDropped ∧ h.has (.context cell.context) = false) := by
  have run : ensureStringPeer s h = _ := (string_bind found _).trans (bind_of_ok (get_run h))
  cases there : h.contexts.contains cell.context with
  | false =>
    rw [there] at run
    exact .of_error run .refl ⟨rfl, there⟩
  | true =>
    rw [there] at run
    cases hp : cell.peer with
    | some p =>
      rw [hp] at run
      exact .of_ok run .refl ⟨(Heap.peerOf_string found).trans hp, there⟩
    | none =>
      rw [hp] at run
      obtain ⟨ctx, hctx⟩ := (Store.contains_iff _ _).mp there
      refine (performs_of_register (stringSite cell) hctx (by rw [Heap.contextOf?, found]; rfl)
        ((Heap.peerOf_string found).trans hp) (run.trans ?_)).mono
        (fun _ _ _ pointer => ⟨pointer, there⟩) (fun _ _ _ => id)
      change (register cell.context (.string s) (stringSite cell) >>= _) h = _
      rw [bind_run]
      cases register cell.context (.string s) (stringSite cell) h <;> rfl

/-- A string whose context is gone gets no peer. -/
def Orphaned (h : Heap) : Object → Prop
  | .vector _ => False
  | .string s => ∃ cell, h.strings.find? s = some cell ∧ h.has (.context cell.context) = false

theorem Orphaned.earlier {h' : Heap} (I : h.Intact) (M : h.Moves T B h') {o : Object}
    (alive : h.isAlive o = true) (orphaned : Orphaned h' o) : Orphaned h o := by
  cases o with
  | vector v => exact orphaned
  | string s =>
    obtain ⟨cell', found', gone⟩ := orphaned
    obtain ⟨cell, found⟩ := (Store.contains_iff _ s).mp alive
    have own := M.contextOf I (o := .string s) (by rw [Heap.contextOf?, found]; rfl)
    rw [Heap.contextOf?, found'] at own
    refine ⟨cell, found, Bool.eq_false_iff.mpr (fun there => ?_)⟩
    rw [show cell'.context = cell.context from Option.some.inj own] at gone
    exact absurd ((M.has I there).symm.trans gone) (by decide)

theorem not_orphaned {c : ContextId} {o : Object} (own : h.contextOf? o = some c)
    (alive : h.has (.context c) = true) : ¬ Orphaned h o := by
  intro orphaned
  cases o with
  | vector v => exact orphaned
  | string s =>
    obtain ⟨cell, found, gone⟩ := orphaned
    rw [Heap.contextOf?, found] at own
    cases own
    exact absurd (alive.symm.trans gone) (by decide)

theorem ensurePeer_performs (I : h.Intact) {o : Object} (alive : h.isAlive o = true) :
    Performs T B (ensurePeer o) h (fun p h' => h'.peerOf? o = some p)
      (fun f _ => f = .error .contextDropped ∧ Orphaned h o) := by
  cases o with
  | vector v =>
    obtain ⟨cell, found⟩ := (Store.contains_iff _ v).mp alive
    exact ensureVectorPeer_performs I found
  | string s =>
    obtain ⟨cell, found⟩ := (Store.contains_iff _ s).mp alive
    refine (ensureStringPeer_performs found).mono (fun _ _ _ assigned => assigned.1) ?_
    rintro f h' _ ⟨rfl, gone⟩
    exact ⟨rfl, cell, found, gone⟩

theorem ensureHandle_performs (I : h.Intact) {o : Object} (alive : h.isAlive o = true) :
    Performs T B (ensureHandle o) h
      (fun k h' => h'.handleOf o = k ∧ k.isSome = true)
      (fun f _ => f = .error .contextDropped ∧ Orphaned h o) := by
  refine (ensurePeer_performs I alive).bind (fun p h₁ M pointer => ?_)
  obtain ⟨q, hq, _⟩ := (M.intact I).peer_of_object pointer
  refine .of_ok (a := q.handle) ?_ .refl ⟨Heap.handleOf_eq pointer hq, ?_⟩
  · exact peer_bind hq _
  · rw [← Heap.handleOf_eq pointer hq]
    exact (M.intact I).handleOf_isSome pointer

end VectorHeap.Op
