import VectorHeap.Proofs.Bookkeeping
import VectorHeap.Proofs.Promotion

/-! What the assignment of handles spares, from any heap. Vectors only come to peers, what has been
promoted and what lies in native memory stays as it is, and contexts count and index the same blocks. -/
namespace VectorHeap

/-- What a context holds of native memory: the types promoted, the bytes counted and the blocks
indexed. -/
def Context.holdings (ctx : Context) : Switches × Nat × Option (Table Address Handle) :=
  (ctx.switches, ctx.registry.liveBytes, ctx.registry.byAddress)

namespace Heap

variable {h h' h'' : Heap} {o : Object} {p : PeerId}

/-- Vectors may have come to peers, and handles may have been drawn. What was there is as it was otherwise. -/
structure Conserves (h h' : Heap) : Prop where
  vectors : ∀ v cell, h.vectors.find? v = some cell →
    ∃ p, h'.vectors.find? v = some { cell with peer := p } ∧ ∀ i, cell.peer = some i → p = some i
  peers : ∀ p q, h.peers.find? p = some q → h'.peers.find? p = some q
  buffers : h'.buffers = h.buffers
  holdings : ∀ c, (h'.contexts.find? c).map Context.holdings =
    (h.contexts.find? c).map Context.holdings

namespace Conserves

theorem refl (h : Heap) : h.Conserves h where
  vectors _ cell found := ⟨cell.peer, found, fun _ => id⟩
  peers _ _ := id
  buffers := rfl
  holdings _ := rfl

theorem trans (S : h.Conserves h') (S' : h'.Conserves h'') : h.Conserves h'' where
  vectors v cell found := by
    obtain ⟨p, found', kept⟩ := S.vectors v cell found
    obtain ⟨p', found'', kept'⟩ := S'.vectors v _ found'
    exact ⟨p', found'', fun i hi => kept' i (kept i hi)⟩
  peers p q found := S'.peers p q (S.peers p q found)
  buffers := S'.buffers.trans S.buffers
  holdings c := (S'.holdings c).trans (S.holdings c)

theorem modifyContext (h : Heap) (c : ContextId) (f : Context → Context)
    (kept : ∀ ctx, (f ctx).holdings = ctx.holdings) : h.Conserves (h.modifyContext c f) where
  vectors _ cell found := ⟨cell.peer, found, fun _ => id⟩
  peers _ _ := id
  buffers := rfl
  holdings i := h.contexts.map_find_modify c i f Context.holdings (fun ctx _ => kept ctx)

theorem addPeer (h : Heap) (q : Peer) : h.Conserves { h with peers := h.peers.add q } :=
  { refl h with peers := fun _ _ found => Store.find_add_of_find q found }

theorem addVector (h : Heap) (cell : VectorCell) :
    h.Conserves { h with vectors := h.vectors.add cell } :=
  { refl h with vectors := fun _ old found =>
      ⟨old.peer, Store.find_add_of_find cell found, fun _ => id⟩ }

theorem of_same (vectors : h'.vectors = h.vectors) (peers : h'.peers = h.peers)
    (buffers : h'.buffers = h.buffers) (contexts : h'.contexts = h.contexts) : h.Conserves h' where
  vectors _ cell found := ⟨cell.peer, vectors ▸ found, fun _ => id⟩
  peers _ _ found := peers ▸ found
  buffers := buffers
  holdings _ := by rw [contexts]

theorem entered (h : Heap) (c : ContextId) (k : Handle) (o : Object) (site : String) :
    h.Conserves (h.entered c k o site) :=
  (addPeer h _).trans (modifyContext _ c _ (fun _ => rfl))

theorem point (bare : h.peerOf? o = none) (p : PeerId) : h.Conserves (h.point o p) := by
  cases o with
  | string s => exact of_same rfl rfl rfl rfl
  | vector v =>
    refine { refl h with vectors := fun w cell found => ?_ }
    by_cases same : v = w
    · subst same
      rw [peerOf_vector found] at bare
      refine ⟨some p, ?_, fun i hi => absurd (bare.symm.trans hi) (by simp)⟩
      exact (h.vectors.find_modify_self v _).trans (by rw [found]; rfl)
    · exact ⟨cell.peer, (h.vectors.find_modify_ne _ same).trans found, fun _ => id⟩

theorem contents (S : h.Conserves h') (b : Backing) : h'.contents b = h.contents b := by
  cases b with
  | external a i => simp only [Heap.contents, S.buffers]
  | _ => rfl

end Conserves
end Heap

namespace Op

variable {α β : Type} {h : Heap} {c : ContextId} {v : VectorId} {p : PeerId} {o : Object}

/-! ### Operations that spare -/

/-- From every heap an operation spares what is there, whatever becomes of it. -/
structure Sparing (op : Op α) : Prop where
  spares : ∀ h, Outcome op h (fun _ h' => h.Conserves h') (fun _ h' => h.Conserves h')

namespace Sparing

theorem of_still {op : Op α} (S : Still op) : Sparing op := by
  refine ⟨fun h => Outcome.mono (S.same h) ?_ ?_⟩
  · rintro _ _ rfl
    exact .refl _
  · rintro _ _ rfl
    exact .refl _

theorem pure (a : α) : Sparing (Pure.pure a : Op α) := of_still (.pure a)

theorem bind {x : Op β} {f : β → Op α} (first : Sparing x) (rest : ∀ b, Sparing (f b)) :
    Sparing (x >>= f) := by
  refine ⟨fun h => Outcome.bind (first.spares h) (fun b h₁ S => ?_)⟩
  exact Outcome.mono ((rest b).spares h₁) (fun _ _ => S.trans) (fun _ _ => S.trans)

theorem map {x : Op β} (g : β → α) (first : Sparing x) : Sparing (g <$> x) :=
  ⟨fun h => Outcome.map (first.spares h)⟩

theorem modify {g : Heap → Heap} (S : ∀ h : Heap, h.Conserves (g h)) :
    Sparing (MonadState.modifyGet (fun h => (PUnit.unit, g h)) : Op PUnit) :=
  ⟨fun h => S h⟩

theorem ite {b : Prop} [Decidable b] {x y : Op α} (first : Sparing x) (second : Sparing y) :
    Sparing (if b then x else y) := by
  split
  · exact first
  · exact second

end Sparing

theorem Outcome.vector_bind {f : VectorCell → Op α} {answers : α → Heap → Prop}
    {stops : Fault → Heap → Prop} (gone : stops .dead h)
    (rest : ∀ cell, h.vectors.find? v = some cell → Outcome (f cell) h answers stops) :
    Outcome (vector v >>= f) h answers stops := by
  refine Outcome.bind_run (fun e h' run => ?_) (fun cell h' run => ?_)
  · rw [vector_run] at run
    cases found : h.vectors.find? v with
    | none =>
      rw [found] at run
      cases run
      exact gone
    | some cell =>
      rw [found] at run
      cases run
  · have found := eq_some_of_live run
    cases ((Still.vector v).same h).ok run
    exact rest cell found

theorem outcome_of_register {op : Op PeerId} (c : ContextId) (site : String) (bare : h.peerOf? o = none)
    (run : op h = match register c o site h with
      | .ok p h' => .ok p (h'.point o p)
      | .error f h' => .error f h') :
    Outcome op h (fun _ h' => h.Conserves h') (fun _ h' => h.Conserves h') := by
  cases found : h.contexts.find? c with
  | none =>
    have dead : register c o site h = .error .dead h := by
      unfold register
      rw [bind_run, context_run, found]
      rfl
    rw [dead] at run
    exact Outcome.of_error run (.refl h)
  | some ctx =>
    have entered := Heap.Conserves.entered h c ctx.registry.nextHandle o site
    rw [register_run found] at run
    cases taken : (ctx.registry.peer? ctx.registry.nextHandle).isSome with
    | true =>
      rw [taken] at run
      exact Outcome.of_error run entered
    | false =>
      rw [taken] at run
      refine Outcome.of_ok run ?_
      have counted := entered.trans (.modifyContext _ c
        (fun ctx => { ctx with registry := ctx.registry.countRegistered }) (fun _ => rfl))
      refine counted.trans (.point ?_ _)
      cases o <;> exact bare

theorem ensureVectorPeer_sparing (v : VectorId) : Sparing (ensureVectorPeer v) := by
  constructor
  intro h
  refine .vector_bind (.refl h) (fun cell found => ?_)
  have pointer := Heap.peerOf_vector found
  cases hp : cell.peer with
  | some p => exact (Sparing.pure p).spares h
  | none =>
    refine outcome_of_register cell.context (vectorSite cell) (pointer.trans hp)
      ((bind_run (register cell.context (.vector v) (vectorSite cell)) _ h).trans ?_)
    cases register cell.context (.vector v) (vectorSite cell) h <;> rfl

theorem ensureStringPeer_sparing (s : StringId) : Sparing (ensureStringPeer s) := by
  constructor
  intro h
  cases found : h.strings.find? s with
  | none =>
    have dead : ensureStringPeer s h = .error .dead h :=
      bind_of_error (by rw [string_run, found]; rfl)
    exact Outcome.of_error dead (.refl h)
  | some cell =>
    have run : ensureStringPeer s h = _ := (string_bind found _).trans (bind_of_ok (get_run h))
    have pointer := Heap.peerOf_string found
    cases there : h.contexts.contains cell.context with
    | false =>
      rw [there] at run
      exact Outcome.of_error run (.refl h)
    | true =>
      rw [there] at run
      cases hp : cell.peer with
      | some p =>
        rw [hp] at run
        exact Outcome.of_ok run (.refl h)
      | none =>
        rw [hp] at run
        refine outcome_of_register cell.context (stringSite cell) (pointer.trans hp) (run.trans ?_)
        change (register cell.context (.string s) (stringSite cell) >>= _) h = _
        rw [bind_run]
        cases register cell.context (.string s) (stringSite cell) h <;> rfl

theorem ensureHandle_sparing (o : Object) : Sparing (ensureHandle o) := by
  have assigned : Sparing (ensurePeer o) := by
    cases o with
    | vector v => exact ensureVectorPeer_sparing v
    | string s => exact ensureStringPeer_sparing s
  exact assigned.bind (fun p => (Sparing.of_still (.peer p)).bind (fun _ => .pure _))

theorem handlesOf_sparing (os : List Object) : Sparing (handlesOf os) := by
  induction os with
  | nil => exact .pure _
  | cons o os ih => exact (ensureHandle_sparing o).bind (fun _ => ih.bind (fun _ => .pure _))

theorem elementHandles_sparing (v : VectorId) : Sparing (elementHandles v) := by
  refine (Sparing.of_still (.vector v)).bind (fun cell => ?_)
  cases cell.buffer with
  | some b => exact handlesOf_sparing _
  | none => exact .pure _

/-! ### Fillers and places -/

theorem naString_sparing (c : ContextId) : Sparing (naString c) := by
  refine (Sparing.of_still (.context c)).bind (fun ctx => ?_)
  cases ctx.naString with
  | some s => exact .pure s
  | none =>
    refine Sparing.bind (x := addString _) ⟨fun h => ?_⟩ (fun s => ?_)
    · exact .of_ok rfl (.of_same rfl rfl rfl rfl)
    · refine Sparing.bind (.modify (fun h => ?_)) (fun _ => .pure s)
      exact .modifyContext h c _ (fun _ => rfl)

theorem emptyList_sparing (c : ContextId) : Sparing (emptyList c) := by
  refine (Sparing.of_still .get).bind (fun h => (Sparing.of_still (.ofPanic _)).bind (fun _ => ?_))
  exact ⟨fun h => .of_ok rfl (.addVector h _)⟩

theorem indirectFiller_sparing (c : ContextId) (type : ElemType) : Sparing (indirectFiller c type) :=
  .ite ((naString_sparing c).map _) ((emptyList_sparing c).map _)

theorem nativeFillers_sparing (c : ContextId) (type : ElemType) (n : Nat) :
    Sparing (nativeFillers c type n) := by
  induction n with
  | zero => exact .pure _
  | succ n ih =>
    exact (indirectFiller_sparing c type).bind (fun o => (ensureHandle_sparing o).bind
      (fun _ => ih.bind (fun _ => .pure _)))

theorem request_sparing {answer : (Nat → Bool) → Except Error Bytes} {size : Nat} {bytes : Bytes}
    (answers : ∀ grants, answer grants =
      if Block.Refused grants size then .error (.allocationFailure size) else .ok bytes)
    (moved : Option Address) : Sparing (request size moved answer) := by
  constructor
  intro h
  have run := request_run (answers h.grants) moved
  split at run
  · exact .of_error run (.of_same rfl rfl rfl rfl)
  · exact .of_ok run (.of_same rfl rfl rfl rfl)

theorem sentinel_sparing (c : ContextId) : Sparing (sentinel c) := by
  refine (Sparing.of_still (.context c)).bind (fun ctx => ?_)
  cases ctx.sentinel with
  | some address => exact .pure address
  | none =>
    refine (request_sparing (Block.allocate_eq sentinelSize) none).bind (fun a => ?_)
    exact Sparing.bind (.modify (fun h => .modifyContext h c _ (fun _ => rfl))) (fun _ => .pure _)

theorem emptyAddress_sparing (c : ContextId) (slots : Nat) : Sparing (emptyAddress c slots) :=
  .ite (sentinel_sparing c) (.pure 0)

theorem ownBlock_sparing (old : Bytes) (size : Nat) (moved : Option Address) :
    Sparing (ownBlock old size moved) :=
  (request_sparing (Block.reallocate_eq old size) moved).bind (fun _ => .pure _)

theorem nativeBacking_sparing (cell : VectorCell) (b : Buffer) (handles : List (Object × Handle)) :
    Sparing (nativeBacking cell b handles) := by
  refine (Sparing.of_still (byteSize_still ..)).bind (fun size => .ite ?_ (ownBlock_sparing ..))
  exact (sentinel_sparing cell.context).map _

end Op
end VectorHeap
