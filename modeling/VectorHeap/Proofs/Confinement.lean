import VectorHeap.Proofs.Heap.Region

/-! Confinement: an operation on a region does the same in two heaps that show the same there, and leaves
both alone outside of it. The two heaps may fill up differently, so that they give new blocks the same
addresses is asked of their allocators, not of the operation. -/
namespace VectorHeap.Op

variable {α β : Type} {S : Region} {R : α → Prop} {Q : β → Prop} {h g g' : Heap}

/-! ### Allocators that may differ -/

def ended : Except Fault α → Heap → EStateM.Result Fault Heap α
  | .ok a, h => .ok a h
  | .error f, h => .error f h

/-- What an operation comes to if the allocator answers in a certain way when it is asked. What it would
answer before and after that does not matter. -/
def Replays (op : Op α) (g : Heap) (result : Except Fault α) (g' : Heap) : Prop :=
  g.allocations ≤ g'.allocations ∧ ∃ liked : Nat → Nat → Option Address, ∀ supply,
    (∀ i, g.allocations ≤ i → i < g'.allocations → supply i = liked i) →
      op { g with supply } = ended result { g' with supply }

namespace Replays

variable {result : Except Fault α} {x : Op β} {f : β → Op α} {b : β}

theorem unasked {op : Op α} (asked : g'.allocations = g.allocations)
    (run : ∀ supply, op { g with supply } = ended result { g' with supply }) :
    Replays op g result g' :=
  ⟨Nat.le_of_eq asked.symm, g.supply, fun supply _ => run supply⟩

theorem after {y z : Op α} {r : Except Fault β} {g₁ : Heap} (first : Replays x g r g₁)
    (rest : Replays y g₁ result g') (runs : ∀ g g₁, x g = ended r g₁ → z g = y g₁) :
    Replays z g result g' := by
  obtain ⟨more, liked, run⟩ := first
  obtain ⟨more', liked', run'⟩ := rest
  refine ⟨Nat.le_trans more more',
    fun i => if i < g₁.allocations then liked i else liked' i, fun supply agrees => ?_⟩
  have before := run supply (fun i low high =>
    (agrees i low (Nat.lt_of_lt_of_le high more')).trans (if_pos high))
  have later := run' supply (fun i low high =>
    (agrees i (Nat.le_trans more low) high).trans (if_neg (Nat.not_lt.mpr low)))
  exact (runs _ _ before).trans later

theorem bind {g₁ : Heap} (first : Replays x g (.ok b) g₁) (rest : Replays (f b) g₁ result g') :
    Replays (x >>= f) g result g' :=
  first.after rest (fun _ _ run => bind_of_ok run)

theorem only {z : Op α} {r : Except Fault β} (first : Replays x g r g')
    (runs : ∀ g g', x g = ended r g' → z g = ended result g') : Replays z g result g' := by
  obtain ⟨more, liked, run⟩ := first
  exact ⟨more, liked, fun supply agrees => runs _ _ (run supply agrees)⟩

theorem stop {e : Fault} (first : Replays x g (.error e) g') : Replays (x >>= f) g (.error e) g' :=
  first.only (fun _ _ run => bind_of_error run)

end Replays

/-! ### Confined operations -/

/-- An operation keeps to a region, and of its answers a condition holds. -/
structure Confined (S : Region) (op : Op α) (R : α → Prop) : Prop where
  outcome : ∀ h g, h.Matches S g → Outcome op h
    (fun a h' => R a ∧ ∃ g', Replays op g (.ok a) g' ∧ Heap.Twinned S h g h' g')
    (fun f h' => ∃ g', Replays op g (.error f) g' ∧ Heap.Twinned S h g h' g')

namespace Confined

theorem ended {op : Op α} {result : Except Fault α} {h' : Heap} (C : Confined S op R) (M : h.Matches S g)
    (run : op h = Op.ended result h') : ∃ g', Replays op g result g' ∧ Heap.Twinned S h g h' g' := by
  cases result with
  | ok a => exact ((C.outcome h g M).ok run).2
  | error f => exact (C.outcome h g M).error run

theorem mono {R' : α → Prop} {op : Op α} (C : Confined S op R) (weaker : ∀ a, R a → R' a) :
    Confined S op R' :=
  ⟨fun h g M => Outcome.mono (C.outcome h g M) (fun a _ o => ⟨weaker a o.1, o.2⟩) (fun _ _ => id)⟩

theorem pure {a : α} (ok : R a) : Confined S (Pure.pure a : Op α) R :=
  ⟨fun _ g M => Outcome.of_ok rfl ⟨ok, g, .unasked rfl (fun _ => rfl), M.stay⟩⟩

theorem throw {f : Fault} : Confined S (MonadExcept.throw f : Op α) R :=
  ⟨fun _ g M => Outcome.of_error rfl ⟨g, .unasked rfl (fun _ => rfl), M.stay⟩⟩

theorem bind {x : Op β} {f : β → Op α} (first : Confined S x Q)
    (rest : ∀ b, Q b → Confined S (f b) R) : Confined S (x >>= f) R := by
  refine ⟨fun h g M => ?_⟩
  refine Outcome.bind_run (fun e h₁ run => ?_) (fun b h₁ run => ?_)
  · obtain ⟨g₁, P, T⟩ := (first.outcome h g M).error run
    exact ⟨g₁, P.stop, T⟩
  · obtain ⟨ok, g₁, P, T⟩ := (first.outcome h g M).ok run
    refine Outcome.mono ((rest b ok).outcome h₁ g₁ T.matched) ?_ ?_
    · rintro a h₂ ⟨answer, g₂, P', T'⟩
      exact ⟨answer, g₂, P.bind P', T.trans T'⟩
    · rintro e h₂ ⟨g₂, P', T'⟩
      exact ⟨g₂, P.bind P', T.trans T'⟩

theorem ite {p : Prop} [Decidable p] {x y : Op α} (first : p → Confined S x R)
    (second : ¬ p → Confined S y R) : Confined S (if p then x else y) R := by
  split
  · exact first ‹_›
  · exact second ‹_›

theorem guard {p : Prop} [Decidable p] {f : Fault} {x : β → Op α} {y : Op α}
    (rest : ¬ p → Confined S y R) :
    Confined S (if p then MonadExcept.throw f >>= x else y) R :=
  ite (fun _ => ⟨fun _ g M => Outcome.of_error rfl ⟨g, .unasked rfl (fun _ => rfl), M.stay⟩⟩) rest

theorem map {x : Op β} {k : β → α} (C : Confined S x Q) (good : ∀ b, Q b → R (k b)) :
    Confined S (k <$> x) R := by
  rw [← bind_pure_comp]
  exact C.bind (fun b ok => .pure (good b ok))

theorem discard {op : Op α} (C : Confined S op R) :
    Confined S (Functor.discard op) (fun _ => True) :=
  C.map (fun _ _ => trivial)

theorem get_bind {k : Heap → Op α} (same : ∀ h g, h.Matches S g → k g = k h)
    (rest : ∀ h, h.Matches S h → Confined S (k h) R) : Confined S (MonadState.get >>= k) R := by
  refine ⟨fun h g M => ?_⟩
  have replayed : ∀ {result g'}, Replays (k h) g result g' →
      Replays (MonadState.get >>= k) g result g' := by
    rintro result g' ⟨more, liked, run⟩
    refine ⟨more, liked, fun supply agrees => ?_⟩
    have twin : k { g with supply } = k h :=
      same h _ (M.aside h.supply supply _ g.allocations h.panics g.panics).matched
    exact (congrFun twin _).trans (run supply agrees)
  change Outcome (k h) h _ _
  refine Outcome.mono ((rest h M.left).outcome h g M) ?_ ?_
  · rintro a h' ⟨answer, g', P, T⟩
    exact ⟨answer, g', replayed P, T⟩
  · rintro e h' ⟨g', P, T⟩
    exact ⟨g', replayed P, T⟩

theorem tryCatch_run (op : Op α) (handler : Fault → Op α) (h : Heap) :
    (MonadExcept.tryCatch op handler : Op α) h = match op h with
      | .ok a h' => .ok a h'
      | .error f h' => handler f h' := by
  change EStateM.tryCatch op handler h = _
  unfold EStateM.tryCatch
  cases op h <;> rfl

theorem tryCatch {op : Op α} {handler : Fault → Op α} (C : Confined S op R)
    (caught : ∀ f, Confined S (handler f) R) : Confined S (MonadExcept.tryCatch op handler) R := by
  refine ⟨fun h g M => ?_⟩
  have same := tryCatch_run op handler h
  cases run : op h with
  | ok a h₁ =>
    rw [run] at same
    obtain ⟨ok, g₁, P, T⟩ := (C.outcome h g M).ok run
    exact Outcome.of_ok same ⟨ok, g₁, P.only (fun _ _ run => by rw [tryCatch_run, run]; rfl), T⟩
  | error f h₁ =>
    rw [run] at same
    obtain ⟨g₁, P, T⟩ := (C.outcome h g M).error run
    have replayed : ∀ {r : Except Fault α} {g'}, Replays (handler f) g₁ r g' →
        Replays (MonadExcept.tryCatch op handler) g r g' :=
      fun P' => P.after P' (fun _ _ run => by rw [tryCatch_run, run]; rfl)
    have rest := (caught f).outcome h₁ g₁ T.matched
    cases run' : handler f h₁ with
    | ok a h₂ =>
      obtain ⟨ok, g₂, P', T'⟩ := rest.ok run'
      exact Outcome.of_ok (same.trans run') ⟨ok, g₂, replayed P', T.trans T'⟩
    | error e h₂ =>
      obtain ⟨g₂, P', T'⟩ := rest.error run'
      exact Outcome.of_error (same.trans run') ⟨g₂, replayed P', T.trans T'⟩

theorem modifyGet (k : Heap → β × Heap)
    (change : ∀ h g, h.Matches S g →
      (k g).1 = (k h).1 ∧ Q (k h).1 ∧ Heap.Twinned S h g (k h).2 (k g).2)
    (plain : ∀ g, g.Matches S g → ∀ supply, k { g with supply } = ((k g).1, { (k g).2 with supply }) ∧
      (k g).2.allocations = g.allocations) :
    Confined S (MonadState.modifyGet k : Op β) Q := by
  refine ⟨fun h g M => ?_⟩
  obtain ⟨same, ok, T⟩ := change h g M
  refine Outcome.of_ok rfl ⟨ok, (k g).2, .unasked (plain g M.right g.supply).2 (fun supply => ?_), T⟩
  change EStateM.Result.ok (k { g with supply }).1 (k { g with supply }).2 = _
  rw [(plain g M.right supply).1, same]
  rfl

theorem modify {k : Heap → Heap} (C : Heap.Steady S k) :
    Confined S (MonadState.modifyGet (fun h => (⟨⟩, k h)) : Op PUnit) (fun _ => True) :=
  modifyGet (fun h => (PUnit.unit, k h)) (fun _ _ M => ⟨rfl, trivial, C.twinned M⟩)
    (fun g M supply => ⟨by rw [C.plain g M supply], C.asked g M⟩)

theorem live (o : Option α) (good : ∀ a, o = some a → R a) : Confined S (Op.live o) R := by
  cases o with
  | some a => exact pure (good a rfl)
  | none => exact throw

theorem ofPanic (r : Except Panic α) (good : ∀ a, r = .ok a → R a) : Confined S (Op.ofPanic r) R := by
  cases r with
  | ok a => exact pure (good a rfl)
  | error p => exact throw

theorem ofError (r : Except Error α) (good : ∀ a, r = .ok a → R a) : Confined S (Op.ofError r) R := by
  cases r with
  | ok a => exact pure (good a rfl)
  | error e => exact throw

theorem retry {σ : Type} {pass : σ → Op (Pass σ α)} {T : σ → Prop}
    (one : ∀ s, T s → Confined S (pass s) (fun r => match r with | .done a => R a | .again s' => T s'))
    (n : Nat) {s : σ} (start : T s) : Confined S (Op.retry pass n s) R := by
  induction n generalizing s with
  | zero => exact throw
  | succ n ih =>
    refine (one s start).bind (fun r mid => ?_)
    cases r with
    | done a => exact pure mid
    | again s' => exact ih mid

/-- An allocator can give the block of the smaller heap the address that it got in the other: nothing
lies there. -/
theorem placement_liked (M : h.Matches S g) {supply : Nat → Nat → Option Address} {bytes : Nat}
    {moved : Option Address} (liked : supply g.allocations bytes = some (h.placement bytes moved)) :
    Heap.placement { g with supply } bytes moved = h.placement bytes moved := by
  have free : h.placement bytes moved ∉ g.liveAddresses.filter (fun a => some a ≠ moved) := by
    intro taken
    obtain ⟨live, other⟩ := List.mem_filter.mp taken
    obtain ⟨x, there⟩ := Heap.mem_liveAddresses_iff.mp live
    have lies := Heap.mem_liveAddresses_iff.mpr ⟨x, M.address there⟩
    exact of_decide_eq_true other (Heap.placement_free h bytes moved lies).symm
  have wish : (supply g.allocations bytes).getD 0 = h.placement bytes moved := by rw [liked]; rfl
  refine (if_neg ?_).trans wish
  change ¬ ((supply g.allocations bytes).getD 0 = 0 ∨ (supply g.allocations bytes).getD 0 ∈ _)
  rw [wish]
  exact fun bad => bad.elim (Heap.placement_ne_zero h bytes moved) free

theorem place (bytes : Nat) (moved : Option Address) :
    Confined S (Op.place bytes moved) (fun _ => True) := by
  refine ⟨fun h g M => Outcome.of_ok (a := h.placement bytes moved) rfl
    ⟨trivial, g.placed, ⟨Nat.le_succ _, fun _ _ => some (h.placement bytes moved), ?_⟩, M.aside ..⟩⟩
  intro supply agrees
  have wish := congrFun (agrees _ (Nat.le_refl _) (Nat.lt_succ_self _)) bytes
  change EStateM.Result.ok (Heap.placement { g with supply } bytes moved) _ = _
  rw [placement_liked M wish]
  rfl

theorem request {answer : (Nat → Bool) → Except Error Bytes} {size : Nat} {bytes : Bytes}
    (answers : ∀ grants, answer grants =
      if Block.Refused grants size then .error (.allocationFailure size) else .ok bytes)
    (moved : Option Address) : Confined S (Op.request size moved answer) (fun _ => True) := by
  refine ⟨fun h g M => ?_⟩
  let liked : Nat → Nat → Option Address :=
    fun _ bytes => if h.grants bytes = true then some (h.placement size moved) else none
  have alike : ∀ supply, (∀ i, g.allocations ≤ i → i < g.placed.allocations → supply i = liked i) →
      (Heap.Refuses { g with supply } size ↔ h.Refuses size) ∧
        supply g.allocations size = liked g.allocations size := by
    intro supply agrees
    have wish := agrees _ (Nat.le_refl _) (Nat.lt_succ_self _)
    refine ⟨iff_of_eq (congrArg (Block.Refused · size) (funext (fun bytes => ?_))), congrFun wish size⟩
    change (supply g.allocations bytes).isSome = h.grants bytes
    rw [wish]
    cases granted : h.grants bytes <;> simp [liked, granted]
  have run := request_run (answers h.grants) moved
  by_cases refused : h.Refuses size
  · rw [if_pos refused] at run
    refine Outcome.of_error run ⟨g.placed, ⟨Nat.le_succ _, liked, fun supply agrees => ?_⟩, M.aside ..⟩
    obtain ⟨same, _⟩ := alike supply agrees
    exact (request_run (answers _) moved).trans (if_pos (same.mpr refused))
  · rw [if_neg refused] at run
    refine Outcome.of_ok run
      ⟨trivial, g.placed, ⟨Nat.le_succ _, liked, fun supply agrees => ?_⟩, M.aside ..⟩
    obtain ⟨same, wish⟩ := alike supply agrees
    have granted : h.grants size = true := by
      cases granted : h.grants size with
      | true => rfl
      | false => exact absurd (.inr (.inr granted)) refused
    refine (request_run (answers _) moved).trans ((if_neg (mt same.mp refused)).trans ?_)
    rw [placement_liked M (wish.trans (if_pos granted))]
    rfl

end Confined

/-! ### Objects -/

variable {c : ContextId} {v : VectorId} {s : StringId} {p : PeerId} {f : FrameId}

theorem context_confined (own : S.refs (.context c)) :
    Confined S (context c) (fun ctx => S.all ctx.refs) :=
  .get_bind (fun _ _ M => congrArg Op.live (M.contexts.find own))
    (fun _ M => .live _ (fun ctx => M.contexts.closed c ctx own))

theorem vector_confined (own : S.refs (.vector v)) :
    Confined S (vector v) (fun cell => S.all cell.refs) :=
  .get_bind (fun _ _ M => congrArg Op.live (M.vectors.find own))
    (fun _ M => .live _ (fun cell => M.vectors.closed v cell own))

theorem string_confined (own : S.refs (.string s)) : Confined S (string s) S.StringIn :=
  .get_bind (fun _ _ M => congrArg Op.live (M.strings.find own))
    (fun _ M => .live _ (fun cell => M.strings.closed s cell own))

theorem peer_confined (own : S.refs (.peer p)) : Confined S (peer p) S.PeerIn :=
  .get_bind (fun _ _ M => congrArg Op.live (M.peers.find own))
    (fun _ M => .live _ (fun q => M.peers.closed p q own))

theorem frame_confined (own : S.refs (.frame f)) : Confined S (frame f) S.FrameIn :=
  .get_bind (fun _ _ M => congrArg Op.live (M.frames.find own))
    (fun _ M => .live _ (fun b => M.frames.closed f b own))

/-! New objects are of the region, since their identities are. -/

theorem addContext_confined {ctx : Context} (good : S.all ctx.refs) :
    Confined S (addContext ctx) (fun c => S.refs (.context c)) :=
  .modifyGet _ (fun _ _ M => ⟨M.contexts.fresh, M.contexts.own_fresh,
    { M with contexts := M.contexts.add good },
    { Heap.Within.refl _ with contexts := M.contexts.within_add _ },
    { Heap.Within.refl _ with contexts := M.contexts.right.within_add _ }⟩) (fun _ _ _ => ⟨rfl, rfl⟩)

theorem addVector_confined {cell : VectorCell} (good : S.all cell.refs) :
    Confined S (addVector cell) (fun v => S.refs (.vector v)) :=
  .modifyGet _ (fun _ _ M => ⟨M.vectors.fresh, M.vectors.own_fresh,
    { M with vectors := M.vectors.add good },
    { Heap.Within.refl _ with vectors := M.vectors.within_add _ },
    { Heap.Within.refl _ with vectors := M.vectors.right.within_add _ }⟩) (fun _ _ _ => ⟨rfl, rfl⟩)

theorem addString_confined {cell : StringCell} (good : S.StringIn cell) :
    Confined S (addString cell) (fun s => S.refs (.string s)) :=
  .modifyGet _ (fun _ _ M => ⟨M.strings.fresh, M.strings.own_fresh,
    { M with strings := M.strings.add good },
    { Heap.Within.refl _ with strings := M.strings.within_add _ },
    { Heap.Within.refl _ with strings := M.strings.right.within_add _ }⟩) (fun _ _ _ => ⟨rfl, rfl⟩)

theorem addPeer_confined {q : Peer} (good : S.PeerIn q) :
    Confined S (addPeer q) (fun p => S.refs (.peer p)) :=
  .modifyGet _ (fun _ _ M => ⟨M.peers.fresh, M.peers.own_fresh,
    { M with peers := M.peers.add good },
    { Heap.Within.refl _ with peers := M.peers.within_add _ },
    { Heap.Within.refl _ with peers := M.peers.right.within_add _ }⟩) (fun _ _ _ => ⟨rfl, rfl⟩)

theorem addFrame_confined {b : Frame} (good : S.FrameIn b) :
    Confined S (addFrame b) (fun f => S.refs (.frame f)) :=
  .modifyGet _ (fun _ _ M => ⟨M.frames.fresh, M.frames.own_fresh,
    { M with frames := M.frames.add good },
    { Heap.Within.refl _ with frames := M.frames.within_add _ },
    { Heap.Within.refl _ with frames := M.frames.right.within_add _ }⟩) (fun _ _ _ => ⟨rfl, rfl⟩)

theorem addBuffer_confined (b : ForeignBuffer) : Confined S (addBuffer b) S.buffers :=
  .modifyGet _ (fun _ _ M => ⟨M.buffers.fresh, M.buffers.own_fresh,
    { M with buffers := M.buffers.add trivial },
    { Heap.Within.refl _ with buffers := M.buffers.within_add _ },
    { Heap.Within.refl _ with buffers := M.buffers.right.within_add _ }⟩) (fun _ _ _ => ⟨rfl, rfl⟩)

/-! Changes of objects of the region. -/

theorem modifyContext_confined (own : S.refs (.context c)) (k : Context → Context)
    (good : ∀ ctx, S.all ctx.refs → S.all (k ctx).refs) :
    Confined S (modify (·.modifyContext c k)) (fun _ => True) := .modify (.modifyContext own k good)

theorem modifyRegistry_confined (own : S.refs (.context c)) (k : Registry → Registry)
    (good : ∀ ctx : Context, S.all ctx.refs → S.all { ctx with registry := k ctx.registry }.refs) :
    Confined S (modify (·.modifyRegistry c k)) (fun _ => True) := .modify (.modifyRegistry own k good)

theorem modifyVector_confined (own : S.refs (.vector v)) (k : VectorCell → VectorCell)
    (good : ∀ cell, S.all cell.refs → S.all (k cell).refs) :
    Confined S (modify (·.modifyVector v k)) (fun _ => True) := .modify (.modifyVector own k good)

theorem modifyString_confined (own : S.refs (.string s)) (k : StringCell → StringCell)
    (good : ∀ cell, S.StringIn cell → S.StringIn (k cell)) :
    Confined S (modify (·.modifyString s k)) (fun _ => True) := .modify (.modifyString own k good)

theorem modifyPeer_confined (own : S.refs (.peer p)) (k : Peer → Peer)
    (good : ∀ q, S.PeerIn q → S.PeerIn (k q)) :
    Confined S (modify (·.modifyPeer p k)) (fun _ => True) := .modify (.modifyPeer own k good)

theorem modifyFrame_confined (own : S.refs (.frame f)) (k : Frame → Frame)
    (good : ∀ b, S.FrameIn b → S.FrameIn (k b)) :
    Confined S (modify (·.modifyFrame f k)) (fun _ => True) := .modify (.modifyFrame own k good)

end VectorHeap.Op
