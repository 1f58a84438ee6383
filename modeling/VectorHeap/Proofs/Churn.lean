import VectorHeap.Heap.Inspection
import VectorHeap.Proofs.FirstPromotion
import VectorHeap.Proofs.HandleSequence
import VectorHeap.Proofs.Heap.Collection
import VectorHeap.Proofs.LiveBytes

/-! Churn: vectors of doubles that are promoted and dropped one after the other, while the worker falls
behind as it likes. What a context shows is told by the number of turns, but for what is still on its way
to the worker; and once the worker caught up nothing is left. -/
namespace VectorHeap

/-! ### The context -/

/-- What a context shows after so many turns, when its worker released so many peers. -/
structure Context.Turned (config : Config) (n done : Nat) (ctx : Context) : Prop where
  configured : ctx.config = config
  registered : ctx.registry.registered = n
  released : ctx.reclaimer.released = done
  index : ctx.registry.byAddress.isSome = config.addressIndex
  switches : ∀ t, ctx.switches.isPromoted t = decide (t = .double ∧ 0 < n)
  naString : ctx.naString = none
  name : ctx.reclaimer.name = config.workerName
  takes : ctx.reclaimer.shutDown = false
  queued : ctx.reclaimer.queue.length = ctx.reclaimer.pending
  drawn : ∀ k p, ctx.registry.peer? k = some p → ∃ i < n, k = (Registry.ofConfig config).drawn i

namespace Context.Turned

variable {config : Config} {n done : Nat} {ctx : Context} {p : PeerId} {q : Peer} {rest : List PeerId}

theorem ofConfig (config : Config) : (Context.ofConfig config).Turned config 0 0 where
  configured := rfl
  registered := rfl
  released := rfl
  index := by
    change Option.isSome (if config.addressIndex then some Table.empty else none) = _
    cases config.addressIndex <;> rfl
  switches t := by simp [Context.ofConfig, Switches.isPromoted, Switches.initial]
  naString := rfl
  name := rfl
  takes := rfl
  queued := rfl
  drawn k p entry := absurd ((Heap.peer_ofConfig config k).symm.trans entry) (by simp)

theorem handIn (T : ctx.Turned config n done) (p : PeerId) : { ctx with reclaimer :=
    { ctx.reclaimer.count with running := true, queue := ctx.reclaimer.queue ++ [p] } }.Turned config n done where
  configured := T.configured
  registered := T.registered
  released := T.released
  index := T.index
  switches := T.switches
  naString := T.naString
  name := T.name
  takes := T.takes
  queued := by
    change (ctx.reclaimer.queue ++ [p]).length = ctx.reclaimer.pending + 1
    rw [List.length_append, T.queued, List.length_singleton]
  drawn := T.drawn

theorem finished (T : ctx.Turned config n done) (queue : ctx.reclaimer.queue = p :: rest) (q : Peer) :
    (Heap.unlisting { ctx with reclaimer := { ctx.reclaimer with queue := rest } } q p).Turned config n
      (done + 1) where
  configured := T.configured
  registered := Heap.registered_unlisting.trans T.registered
  released := congrArg (· + 1) T.released
  index := (isSome_byAddress_dropContents _ _).trans
    ((congrArg Option.isSome (Heap.byAddress_remove _ _ _)).trans T.index)
  switches := T.switches
  naString := T.naString
  name := T.name
  takes := T.takes
  queued := by
    have length := T.queued
    rw [queue, List.length_cons] at length
    change rest.length = ctx.reclaimer.pending - 1
    omega
  drawn k i entry := by
    refine T.drawn k i (Heap.peer_remove (k := q.handle) (p := p) ?_)
    exact (congrArg (·.find? k) (accounts_dropContents _ q.backing).1).symm.trans entry

theorem promoted (T : ctx.Turned config n done) (p : PeerId) (site : String) (sentinel : Option Address)
    (b : Backing) {k : Handle} (next : k = (Registry.ofConfig config).drawn n) :
    { Heap.listing ctx k p site with
      sentinel
      registry := (Heap.listing ctx k p site).registry.addContents k b
      switches := ctx.switches.flip .double }.Turned config (n + 1) done where
  configured := T.configured
  released := T.released
  registered := (accounts_addContents _ _ _).2.2.2.trans (congrArg (· + 1) T.registered)
  index := (isSome_byAddress_addContents _ _ _).trans T.index
  switches t := by
    change (ctx.switches.flip .double).isPromoted t = _
    rw [Switches.isPromoted_flip, T.switches]
    by_cases double : t = .double <;> simp [double]
  naString := T.naString
  name := T.name
  takes := T.takes
  queued := T.queued
  drawn k' i entry := by
    have entry : (Heap.listing ctx k p site).registry.peer? k' = some i :=
      (congrArg (·.find? k') (accounts_addContents _ k b).1).symm.trans entry
    rcases Heap.peer_listing.mp entry with ⟨rfl, _⟩ | ⟨_, old⟩
    · exact ⟨n, Nat.lt_succ_self n, next⟩
    · obtain ⟨j, lt, same⟩ := T.drawn k' i old
      exact ⟨j, Nat.lt_succ_of_lt lt, same⟩

theorem next (T : ctx.Turned config n done) (C : ctx.Counts) :
    ctx.registry.nextHandle = (Registry.ofConfig config).drawn n := by
  refine congrArg Handle.mk (UInt64.toNat_inj.mp ?_)
  have base : (Registry.ofConfig config).counter.toNat = config.handles.start :=
    HandleSequence.toNat_base _
  have stride : (Registry.ofConfig config).stride.toNat = config.handles.step :=
    HandleSequence.toNat_stride _
  rw [C.counter, T.configured, T.registered, ← base, ← stride]
  exact (Registry.toNat_drawn _ n).symm

theorem free (T : ctx.Turned config n done) (C : ctx.Counts)
    (few : n < 2 ^ 64 / Nat.gcd (2 ^ 64) config.handles.step) :
    ctx.registry.peer? ctx.registry.nextHandle = none := by
  refine Option.eq_none_iff_forall_ne_some.mpr (fun p entry => ?_)
  obtain ⟨i, lt, same⟩ := T.drawn _ p entry
  rw [T.next C] at same
  have stride : (Registry.ofConfig config).stride.toNat = config.handles.step :=
    HandleSequence.toNat_stride _
  exact Registry.drawn_injective _ lt (by rw [stride]; omega) same.symm

end Context.Turned

/-! ### Handing in to a worker that takes everything -/

theorem Reclaimer.dispatch_taken {r : Reclaimer} (takes : r.shutDown = false)
    (name : 0 ∉ Utf8.encode r.name) (p : PeerId) :
    r.dispatch? p = .ok (some { r with running := true, queue := r.queue ++ [p] }) := by
  have start : r.start = .ok { r with running := true } := by
    unfold Reclaimer.start
    cases running : r.running with
    | true =>
      rw [Bool.true_or, if_pos rfl]
      cases r
      cases running
      rfl
    | false =>
      have clean : (Utf8.encode r.name).findIdx? (· == 0) = none := by
        refine List.findIdx?_eq_none_iff.mpr (fun b hb => ?_)
        exact beq_eq_false_iff_ne.mpr (fun zero => name (zero ▸ hb))
      rw [takes, Bool.or_false, if_neg Bool.false_ne_true]
      simp only [clean]
  unfold Reclaimer.dispatch?
  rw [start]
  rfl

namespace Heap

variable {h : Heap} {c : ContextId} {ctx : Context} {p : PeerId}

theorem context_reclaimed (found : h.contexts.find? c = some ctx)
    (takes : ctx.reclaimer.shutDown = false) (name : 0 ∉ Utf8.encode ctx.reclaimer.name) (p : PeerId) :
    (h.reclaim c p).peers = h.peers ∧ (h.reclaim c p).contexts.find? c = some { ctx with reclaimer :=
      { ctx.reclaimer.count with running := true, queue := ctx.reclaimer.queue ++ [p] } } := by
  have counted : (h.modifyReclaimer c (·.count)).contexts.find? c =
      some { ctx with reclaimer := ctx.reclaimer.count } :=
    (Store.find_modify_self _ c _).trans (by rw [found]; rfl)
  have taken := Reclaimer.dispatch_taken (r := ctx.reclaimer.count) takes name p
  unfold reclaim handIn
  simp only [counted, Option.map_some, taken]
  exact ⟨rfl, (Store.find_modify_self _ c _).trans (congrArg (Option.map _) counted)⟩

/-! ### The heap -/

/-- A heap between two turns: vectors of doubles, without pins and without names, in one context. -/
structure Churning (supply : Nat → Nat → Option Address) (c : ContextId) (config : Config)
    (length n done : Nat) (h : Heap) : Prop where
  run : ∃ past, Run Distinct { supply } past h
  asked : h.supply = supply
  doubles : ∀ v cell, h.vectors.find? v = some cell → cell.type = .double
  unpinned : ∀ p q, h.peers.find? p = some q → q.pins = []
  sized : ∀ p q, h.peers.find? p = some q → q.released = false → q.backing.ownedBytes = 8 * length
  nameless : ∀ f, h.frames.find? f = none
  alone : ∀ d ctx, h.contexts.find? d = some ctx → d = c
  context : ∃ ctx, h.contexts.find? c = some ctx ∧ ctx.Turned config n done

namespace Churning

variable {supply : Nat → Nat → Option Address} {config : Config} {length n done : Nat} {h' : Heap} {r : Ref}
  {roots : List Ref}

theorem start (supply : Nat → Nat → Option Address) (config : Config) (length : Nat) :
    Churning supply (Store.empty : Store .context Context).fresh config length 0 0
      { supply, contexts := Store.empty.add (.ofConfig config) } where
  run := ⟨_, Run.start.step (.answer (.newContext config) ⟨by simp [Call.refs], by simp⟩ rfl)⟩
  asked := rfl
  doubles _ _ found := absurd found (by simp)
  unpinned _ _ found := absurd found (by simp)
  sized _ _ found := absurd found (by simp)
  nameless _ := by simp
  alone d ctx found := by
    rcases Store.eq_or_find_of_find_add found with ⟨same, _⟩ | old
    · exact same
    · exact absurd old (by simp)
  context := ⟨_, Store.find_add_fresh _ _, .ofConfig config⟩

theorem buried_start (C : Heap.Churning supply c config length 0 0
    { supply, contexts := Store.empty.add (.ofConfig config) }) :
    ({ supply, contexts := Store.empty.add (.ofConfig config) } : Heap).dead [.context c] = [] := by
  refine List.eq_nil_iff_forall_not_mem.mpr (fun r dead => ?_)
  obtain ⟨there, rootless, _⟩ := mem_dead_iff.mp dead
  cases r with
  | context d =>
    obtain ⟨ctx, found⟩ := has_context_iff.mp there
    exact rootless (List.mem_singleton.mpr (congrArg Ref.context (C.alone d ctx found)))
  | _ => cases there

theorem intact (C : h.Churning supply c config length n done) : h.Intact := by
  obtain ⟨past, run⟩ := C.run
  exact run_intact (intact_of_supply supply) run

theorem balanced (C : h.Churning supply c config length n done) : h.Balanced := by
  obtain ⟨past, run⟩ := C.run
  exact run_balanced run

theorem counts (C : h.Churning supply c config length n done) (found : h.contexts.find? c = some ctx) :
    ctx.Counts := by
  obtain ⟨past, run⟩ := C.run
  exact (RunIn.of_run run).open.countsIn (fun _ there => absurd there (by simp)) ctx found

/-! ### Burials and turns of the worker -/

theorem shed {done' : Nat} (C : h.Churning supply c config length n done) (S : h.Sheds h')
    (last : Step Distinct h h')
    (live : ∀ p q, h'.peers.find? p = some q → q.released = false → h.peers.find? p = some q)
    (context : ∃ ctx, h'.contexts.find? c = some ctx ∧ ctx.Turned config n done') :
    h'.Churning supply c config length n done' where
  run := C.run.elim (fun _ run => ⟨_, run.step last⟩)
  asked := S.supply.trans C.asked
  doubles v cell found := C.doubles v cell (S.vectors v cell found)
  unpinned p q' found := by
    obtain ⟨q, hq, rfl | ⟨fades, _⟩⟩ := S.peers p q' found
    · exact C.unpinned p q' hq
    · exact fades.pins.elim (fun same => same.trans (C.unpinned p q hq)) id
  sized p q found unreleased := C.sized p q (live p q found unreleased) unreleased
  nameless f := Option.eq_none_iff_forall_ne_some.mpr (fun b found =>
    absurd ((C.nameless f).symm.trans (S.frames f b found)) (by simp))
  alone d ctx' found := by
    obtain ⟨ctx, before, _⟩ := S.contexts d ctx' found
    exact C.alone d ctx before
  context := context

theorem bury (C : h.Churning supply c config length n done) (name : 0 ∉ Utf8.encode config.workerName)
    (root : .context c ∈ roots) (dead : r ∈ h.dead roots) :
    (h.bury r).Churning supply c config length n done := by
  obtain ⟨ctx, found, T⟩ := C.context
  obtain ⟨_, rootless, unheld, _⟩ := mem_dead_iff.mp dead
  have shed := bury_sheds C.intact unheld
  rcases bury_cases C.intact r with ⟨plain, _⟩ | ⟨o, d, p, rfl, _, there, _, handed⟩
  · refine C.shed shed (.bury _ r dead) (fun p q hq _ => ?_) ?_
    · rw [plain] at hq
      exact (find_without h r).2.2.1 p q hq
    rw [plain]
    refine ⟨ctx, ?_, T⟩
    cases r with
    | context d =>
      refine (h.contexts.find_erase d c).trans ((if_neg (fun same => rootless ?_)).trans found)
      exact same ▸ root
    | _ => exact found
  · obtain ⟨ctx', found'⟩ := has_context_iff.mp there
    cases C.alone d ctx' found'
    obtain ⟨peers, reclaimed⟩ :=
      context_reclaimed ((contexts_without o).symm ▸ found) T.takes (T.name.symm ▸ name) p
    refine C.shed shed (.bury _ _ dead) (fun i q hq _ => ?_) ⟨_, handed ▸ reclaimed, T.handIn p⟩
    rw [handed, peers] at hq
    exact (find_without h (.ofObject o)).2.2.1 i q hq

theorem work_idle (C : h.Churning supply c config length n done) (idle : h.queueOf c = []) :
    (h.work c).Churning supply c config length n done :=
  (work_of_idle idle).symm ▸ C

theorem work (C : h.Churning supply c config length n done) {p : PeerId} {rest : List PeerId}
    (waiting : h.queueOf c = p :: rest) : (h.work c).Churning supply c config length n (done + 1) := by
  obtain ⟨ctx, found, T⟩ := C.context
  have queue : ctx.reclaimer.queue = p :: rest := by
    rw [queueOf, found] at waiting
    exact waiting
  obtain ⟨k, entry⟩ := (C.balanced c ctx found).waiting p (queue ▸ List.mem_cons_self)
  obtain ⟨q, hq, live, _⟩ := (C.balanced c ctx found).entry k p entry
  have run := work_of_queue found queue
  have peers : (h.work c).peers = h.peers.modify p Peer.emptied := by
    rw [run]
    exact peers_finished (h := h.modifyReclaimer c _) hq live c
  refine C.shed (work_sheds C.intact c) (.work c) (fun i q' hq' unreleased => ?_) ?_
  · rw [peers] at hq'
    by_cases same : p = i
    · subst same
      obtain ⟨_, _, rfl⟩ := Option.map_eq_some_iff.mp ((Store.find_modify_self ..).symm.trans hq')
      cases unreleased
    · exact (Store.find_modify_ne _ _ same).symm.trans hq'
  · rw [run]
    exact ⟨_, context_finished hq live ((Store.find_modify_self _ c _).trans (by rw [found]; rfl)),
      T.finished queue q⟩

/-! ### Making and promoting -/

theorem newVector (C : h.Churning supply c config length n done) (xs : List Double) :
    let b := Buffer.ofValues .double xs
    let h' : Heap := { h with vectors := h.vectors.add (h.cellOver c b b.capacity) }
    Op.newVector c b h = .ok h.vectors.fresh h' ∧ h'.Churning supply c config length n done := by
  intro b h'
  have run : Op.newVector c b h = .ok h.vectors.fresh h' := Op.overBuffer_run c (Nat.le_refl _)
  obtain ⟨ctx, found, T⟩ := C.context
  have plain : ∀ e ∈ b.slots, e.refs = [] := by
    intro e he
    obtain ⟨x, _, rfl⟩ := List.mem_map.mp he
    rfl
  have alive : (Call.newVector c .double b.slots).Admissible h := by
    refine ⟨List.forall_mem_cons.mpr ⟨has_context_iff.mpr ⟨ctx, found⟩, fun r hr => ?_⟩, by simp⟩
    obtain ⟨e, he, held⟩ := List.mem_flatMap.mp hr
    rw [plain e he] at held
    exact absurd held List.not_mem_nil
  have made : (Op.bufferOf .double b.slots >>= Op.newVector c) h = .ok h.vectors.fresh h' :=
    (Op.bind_of_ok (Op.bufferOf_run b.typed)).trans run
  refine ⟨run, { C with run := ?_, doubles := fun v cell there => ?_, context := ⟨ctx, found, T⟩ }⟩
  · exact C.run.elim (fun _ run => ⟨_, run.step (.answer _ alive (Op.discard_run made))⟩)
  · rcases Store.eq_or_find_of_find_add there with ⟨_, rfl⟩ | old
    · rfl
    · exact C.doubles v cell old

theorem promote (C : h.Churning supply c config length n done)
    (few : n < 2 ^ 64 / Nat.gcd (2 ^ 64) config.handles.step) {v : VectorId} {cell : VectorCell}
    {b : Buffer} (found : h.vectors.find? v = some cell) (managed : cell.buffer = some b)
    (bare : cell.peer = none) (capacity : cell.capacity = length)
    (granted : ¬ h.Refuses (Op.blockSize (8 * length))) :
    ∃ k h', Op.promote v h = .ok k h' ∧ h'.Churning supply c config length (n + 1) done := by
  have double := C.doubles v cell found
  obtain ⟨ctx, there, T⟩ := C.context
  obtain ⟨ctx', there'⟩ := C.intact.context_of_vector found
  have here : cell.context = c := C.alone _ ctx' there'
  subst here
  obtain ⟨backing, h₁, sentinel, size, R, vectors, peers, changed, run⟩ :=
    promote_fresh C.intact found managed bare (by rw [double]; rfl) there (T.free (C.counts there) few)
      (by rw [double, capacity]; exact granted)
  rw [double, capacity] at size
  have alive : (Call.promote v).Admissible h :=
    ⟨fun r hr => by rw [List.mem_singleton.mp hr]; exact has_vector_iff.mpr ⟨cell, found⟩, by simp⟩
  let moved := Op.movedOut h₁ v { cell with peer := some h.peers.fresh } h.peers.fresh
    { handle := ctx.registry.nextHandle, owner := .vector v } backing []
  have M : h₁.Revises (some v) (some h.peers.fresh) moved := Op.movedOut_revises ..
  refine ⟨_, moved, run, ?_⟩
  refine
    { run := C.run.elim (fun _ before => ⟨_, before.step (.answer _ alive (Op.discard_run run))⟩)
      asked := M.asks.supply.trans (R.asks.supply.trans C.asked)
      doubles := fun w cell' found' => ?_, unpinned := fun i q found' => ?_
      sized := fun i q found' live => ?_, nameless := fun f => ?_
      alone := fun d ctx' found' => ?_, context := ⟨_, Op.context_movedOut changed .., ?_⟩ }
  · obtain ⟨cell₁, found₁, same₁⟩ := exists_of_map_eq (M.vectors w) found'
    rw [vectors] at found₁
    have listed := h.vectors.map_find_modify v w (fun cell => { cell with peer := some h.peers.fresh })
      VectorCell.type (fun _ _ => rfl)
    obtain ⟨cell₀, found₀, same₀⟩ := exists_of_map_eq listed found₁
    exact (congrArg (·.2.1) same₁).trans (same₀.trans (C.doubles w cell₀ found₀))
  · by_cases own : h.peers.fresh = i
    · subst own
      obtain ⟨_, _, rfl⟩ := Option.map_eq_some_iff.mp ((Store.find_modify_self ..).symm.trans found')
      rfl
    · have listed := (M.peer i (fun same => own (Option.some.inj same))).symm.trans found'
      rw [peers, peers_listed] at listed
      rcases Store.eq_or_find_of_find_add listed with ⟨rfl, _⟩ | old
      · exact absurd rfl own
      · exact C.unpinned i q old
  · by_cases own : h.peers.fresh = i
    · subst own
      obtain ⟨_, _, rfl⟩ := Option.map_eq_some_iff.mp ((Store.find_modify_self ..).symm.trans found')
      exact size
    · have listed := (M.peer i (fun same => own (Option.some.inj same))).symm.trans found'
      rw [peers, peers_listed] at listed
      rcases Store.eq_or_find_of_find_add listed with ⟨rfl, _⟩ | old
      · exact absurd rfl own
      · exact C.sized i q old live
  · rw [M.frames, R.frames]
    exact C.nameless f
  · obtain ⟨ctx₁, found₁, _⟩ := exists_of_map_eq (M.contexts d) found'
    obtain ⟨ctx₀, found₀, _⟩ := exists_of_map_eq (R.contexts d) found₁
    by_cases same : cell.context = d
    · exact same.symm
    · exact C.alone d ctx₀ ((context_listed_ne same).symm.trans found₀)
  · exact double ▸ T.promoted _ _ sentinel backing (T.next (C.counts there))

/-! ### What is left -/

theorem unheld (C : h.Churning supply c config length n done) (o : Object) : .ofObject o ∉ h.refs := by
  intro held
  have object : ∀ d : ContextId, Ref.ofObject o ≠ .context d := fun d same => by cases o <;> cases same
  have object' : ∀ p : PeerId, Ref.ofObject o ≠ .peer p := fun p same => by cases o <;> cases same
  rcases mem_refs_iff.mp held with ⟨v, cell, found, hr⟩ | ⟨s, cell, found, hr⟩ | ⟨p, q, hq, hr⟩ |
    ⟨d, ctx, found, hr⟩ | ⟨f, b, found, _⟩
  · rcases mem_vector_refs.mp hr with same | ⟨p, _, same⟩ | ⟨b, hb, hr⟩
    · exact object _ same
    · exact object' p same
    · have type := ((C.intact.vectors v cell found).managed b hb).type.trans (C.doubles v cell found)
      have none : b.refs = [] :=
        congrArg (List.map Ref.ofObject) (Op.bufferObjects_inline (b := b) (by rw [type]; rfl))
      rw [none] at hr
      exact absurd hr List.not_mem_nil
  · obtain ⟨p, _, same⟩ := mem_string_refs.mp hr
    exact object' p same
  · obtain ⟨o', pin, _⟩ := mem_peer_refs.mp hr
    rw [C.unpinned p q hq] at pin
    exact absurd pin List.not_mem_nil
  · obtain ⟨ctx', found', T⟩ := C.context
    cases C.alone d ctx found
    cases found.symm.trans found'
    rcases mem_context_refs.mp hr with ⟨s, hs, _⟩ | ⟨k, p, _, same⟩ | ⟨p, _, same⟩
    · exact absurd (T.naString.symm.trans hs) (by simp)
    · exact object' p same
    · exact object' p same
  · exact absurd ((C.nameless f).symm.trans found) (by simp)

theorem waiting (C : h.Churning supply c config length n done) (buried : h.dead [.context c] = [])
    (found : h.contexts.find? c = some ctx) :
    ctx.registry.peers.size + done = n ∧ ctx.reclaimer.pending = ctx.registry.peers.size := by
  obtain ⟨ctx', found', T⟩ := C.context
  cases found.symm.trans found'
  have A := C.balanced c ctx found
  refine ⟨by rw [← T.released, A.size, T.registered], ?_⟩
  refine (Nat.add_zero _).symm.trans (A.pending.trans (List.countP_eq_length.mpr (fun e he => ?_)))
  obtain ⟨q, hq, _⟩ := A.entry _ _ (mem_entries he)
  rw [isForsaken_eq hq, Option.isNone_iff_eq_none]
  refine Option.eq_none_iff_forall_ne_some.mpr (fun d own => ?_)
  have alive := isAlive_iff_contextOf.mpr ⟨d, own⟩
  have rooted : ∀ r ∈ [Ref.context c], h.has r = true := fun r hr => by
    rw [List.mem_singleton.mp hr]
    exact has_context_iff.mpr ⟨ctx, found⟩
  have live := (isAlive_iff_live C.intact rooted (by rw [buried]; exact List.not_mem_nil)).mp alive
  rcases List.mem_append.mp live with root | held
  · have same := List.mem_singleton.mp root
    cases ho : q.owner <;> rw [ho] at same <;> cases same
  · exact C.unheld q.owner held

/-- The worker is idle just if it released as many peers as were promoted. -/
theorem queue_eq_nil_iff (C : h.Churning supply c config length n done)
    (buried : h.dead [.context c] = []) : done ≤ n ∧ (h.queueOf c = [] ↔ done = n) := by
  obtain ⟨ctx, found, T⟩ := C.context
  obtain ⟨size, pending⟩ := C.waiting buried found
  have queue : h.queueOf c = ctx.reclaimer.queue := by
    rw [queueOf, found]
    rfl
  rw [queue, ← List.length_eq_zero_iff, T.queued]
  omega

/-- Collecting leaves such a heap, and nothing dead. -/
theorem collect (C : h.Churning supply c config length n done) (name : 0 ∉ Utf8.encode config.workerName) :
    (h.collect [.context c]).Churning supply c config length n done ∧
      (h.collect [.context c]).dead [.context c] = [] := by
  have kept : Outlives [.context c] (Churning supply c config length n done) :=
    ⟨fun _ C => C.intact, fun _ _ C dead => C.bury name List.mem_cons_self dead⟩
  obtain ⟨C', buried, _⟩ := kept.collect C
  exact ⟨C', buried⟩

theorem liveBytes (C : h.Churning supply c config length n done)
    (found : h.contexts.find? c = some ctx) :
    ctx.registry.liveBytes = ctx.registry.peers.size * (8 * length) := by
  obtain ⟨past, run⟩ := C.run
  have same : ∀ e ∈ ctx.registry.peers.entries, h.ownedBytes e.2 = 8 * length := by
    intro e he
    obtain ⟨q, hq, live, _⟩ := (C.balanced c ctx found).entry _ _ (mem_entries he)
    rw [ownedBytes_eq hq]
    exact C.sized _ q hq live
  rw [run_metered run c ctx found, listedBytes, List.map_congr_left same, List.map_const',
    List.sum_replicate_nat, Table.size]

theorem snapshot (C : h.Churning supply c config length n done) (buried : h.dead [.context c] = [])
    (found : h.contexts.find? c = some ctx) : ctx.snapshot =
      { peers := n - done, registered := n, pending := n - done, released := done
        liveBytes := (n - done) * (8 * length)
        counter := ((Registry.ofConfig config).drawn n).raw
        addressIndex := config.addressIndex
        switches := ElemType.all.map (fun t => (t, decide (t = .double ∧ 0 < n))) } := by
  obtain ⟨size, pending⟩ := C.waiting buried found
  obtain ⟨ctx', found', T⟩ := C.context
  cases found.symm.trans found'
  have left : ctx.registry.peers.size = n - done := by omega
  rw [Context.snapshot, pending, C.liveBytes found, left, T.registered, T.released, T.index,
    ← congrArg Handle.raw (T.next (C.counts found)), Switches.positions]
  simp only [T.switches, Registry.nextHandle]

end Churning

end Heap

end VectorHeap
