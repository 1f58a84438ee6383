import VectorHeap.Proofs.Run

/-! The accounts of a context: its registry lists the peers of its objects, each until it is released,
and it counts those whose owners are dead as pending. This needs that no handle is drawn twice. -/
namespace VectorHeap

namespace Heap

def isForsaken (h : Heap) (p : PeerId) : Bool :=
  (h.peers.find? p).any (fun q => (h.contextOf? q.owner).isNone)

/-- A context lists the peers of its objects, and no other peers of objects that are alive. -/
structure Names (h : Heap) (c : ContextId) (ctx : Context) : Prop where
  entry : ∀ k p, ctx.registry.peer? k = some p → ∃ q, h.peers.find? p = some q ∧
    ∀ c', h.contextOf? q.owner = some c' → c' = c ∧ h.peerOf? q.owner = some p
  listed : ∀ o p q, h.contextOf? o = some c → h.peerOf? o = some p → h.peers.find? p = some q →
    ctx.registry.peer? q.handle = some p

/-- The accounts of a context are right, but that so many deaths are not counted yet. -/
structure Accounted (h : Heap) (c : ContextId) (ctx : Context) (owed : Nat) : Prop where
  entry : ∀ k p, ctx.registry.peer? k = some p → ∃ q, h.peers.find? p = some q ∧
    q.released = false ∧ ∀ c', h.contextOf? q.owner = some c' →
      c' = c ∧ h.peerOf? q.owner = some p
  own : ∀ k p c' ctx' k', ctx.registry.peer? k = some p → h.contexts.find? c' = some ctx' →
    ctx'.registry.peer? k' = some p → c' = c
  listed : ∀ o p q, h.contextOf? o = some c → h.peerOf? o = some p → h.peers.find? p = some q →
    ctx.registry.peer? q.handle = some p
  nodup : ctx.reclaimer.queue.Nodup
  waiting : ∀ p ∈ ctx.reclaimer.queue, ∃ k, ctx.registry.peer? k = some p
  size : ctx.registry.peers.size + ctx.reclaimer.released = ctx.registry.registered
  pending : ctx.reclaimer.pending + owed =
    ctx.registry.peers.entries.countP (fun e => h.isForsaken e.2)

def Balanced (h : Heap) : Prop :=
  ∀ c ctx, h.contexts.find? c = some ctx → h.Accounted c ctx 0

variable {h h' : Heap} {c : ContextId} {ctx ctx' : Context} {n : Nat}

theorem Accounted.names (A : h.Accounted c ctx n) : h.Names c ctx where
  entry k p entry := by
    obtain ⟨q, hq, _, owner⟩ := A.entry k p entry
    exact ⟨q, hq, owner⟩
  listed := A.listed

theorem alive_of_peerOf {o : Object} {p : PeerId} (pointer : h.peerOf? o = some p) :
    h.isAlive o = true := by
  cases o with
  | vector v =>
    obtain ⟨cell, found, _⟩ := Option.bind_eq_some_iff.mp pointer
    exact (Store.contains_iff _ v).mpr ⟨cell, found⟩
  | string s =>
    obtain ⟨cell, found, _⟩ := Option.bind_eq_some_iff.mp pointer
    exact (Store.contains_iff _ s).mpr ⟨cell, found⟩

theorem isForsaken_eq {p : PeerId} {q : Peer} (found : h.peers.find? p = some q) :
    h.isForsaken p = (h.contextOf? q.owner).isNone := by
  rw [isForsaken, found]
  rfl

theorem Intact.handle_of_entry (I : h.Intact) (found : h.contexts.find? c = some ctx) {k : Handle}
    {p : PeerId} {q : Peer} (entry : ctx.registry.peer? k = some p)
    (hq : h.peers.find? p = some q) : q.handle = k :=
  (I.contexts c ctx found).entry k p q entry hq

/-- In a registry that names its objects, a handle finds the object that shows it. -/
theorem Names.resolve_eq_some_iff (I : h.Intact) (N : h.Names c ctx)
    (found : h.contexts.find? c = some ctx) (k : Handle) (o : Object) :
    h.resolve? c k = some o ↔
      h.contextOf? o = some c ∧ k.isSome = true ∧ h.handleOf o = k := by
  simp only [resolve?, found, Option.bind_eq_bind, Option.bind_some]
  constructor
  · intro resolved
    obtain ⟨p, entry, resolved⟩ := Option.bind_eq_some_iff.mp resolved
    obtain ⟨q, hq, resolved⟩ := Option.bind_eq_some_iff.mp resolved
    split at resolved
    · rename_i alive
      cases resolved
      obtain ⟨q', hq', owner⟩ := N.entry k p entry
      cases hq.symm.trans hq'
      obtain ⟨c', own⟩ := isAlive_iff_contextOf.mp alive
      obtain ⟨rfl, pointer⟩ := owner c' own
      have handle : h.handleOf q.owner = k :=
        (handleOf_eq pointer hq).trans (I.handle_of_entry found entry hq)
      exact ⟨own, handle ▸ I.handleOf_isSome pointer, handle⟩
    · exact absurd resolved (by simp)
  · rintro ⟨own, named, rfl⟩
    obtain ⟨p, q, pointer, hq, handle⟩ := peerOf_of_handleOf named
    obtain ⟨q', hq', owner, _⟩ := I.peer_of_object pointer
    cases hq.symm.trans hq'
    have entry := N.listed o p q own pointer hq
    have alive := isAlive_iff_contextOf.mpr ⟨c, own⟩
    simp only [handle, entry, hq, owner, alive, Option.bind_some, if_true]

theorem mem_entries {r : Registry} {e : Handle × PeerId} (mem : e ∈ r.peers.entries) :
    r.peer? e.1 = some e.2 :=
  (Table.mem_entries_iff r.peers e.1 e.2).mp mem

structure Carries (h h' : Heap) (c : ContextId) (ctx : Context) : Prop where
  peers : ∀ k p q, ctx.registry.peer? k = some p → h.peers.find? p = some q →
    ∃ q', h'.peers.find? p = some q' ∧ q'.fixed = q.fixed
  owners : ∀ k p q, ctx.registry.peer? k = some p → h.peers.find? p = some q →
    h'.contextOf? q.owner = h.contextOf? q.owner ∧
      ∀ i, h.peerOf? q.owner = some i → h'.peerOf? q.owner = some i
  own : ∀ k p c' ctx' k', ctx.registry.peer? k = some p → h'.contexts.find? c' = some ctx' →
    ctx'.registry.peer? k' = some p → ∃ ctx₀, h.contexts.find? c' = some ctx₀ ∧
      ctx₀.registry.peer? k' = some p
  listed : ∀ o p q', h'.contextOf? o = some c → h'.peerOf? o = some p → h'.peers.find? p = some q' →
    ∃ q, h.contextOf? o = some c ∧ h.peerOf? o = some p ∧ h.peers.find? p = some q ∧
      q.handle = q'.handle

theorem Names.carry (N : h.Names c ctx) (C : h.Carries h' c ctx)
    (same : ∀ k, ctx'.registry.peer? k = ctx.registry.peer? k) : h'.Names c ctx' where
  entry k p entry := by
    rw [same] at entry
    obtain ⟨q, hq, owner⟩ := N.entry k p entry
    obtain ⟨q', hq', fixed⟩ := C.peers k p q entry hq
    have owner' : q'.owner = q.owner := congrArg (fun t => t.2.1) fixed
    obtain ⟨context, pointer⟩ := C.owners k p q entry hq
    refine ⟨q', hq', fun c' own => ?_⟩
    rw [owner', context] at own
    rw [owner']
    exact ⟨(owner c' own).1, pointer p (owner c' own).2⟩
  listed o p q' own pointer hq' := by
    obtain ⟨q, own', pointer', hq, handle⟩ := C.listed o p q' own pointer hq'
    rw [same, ← handle]
    exact N.listed o p q own' pointer' hq

theorem Carries.isForsaken (C : h.Carries h' c ctx) (A : h.Accounted c ctx n) {k : Handle}
    {p : PeerId} (entry : ctx.registry.peer? k = some p) : h'.isForsaken p = h.isForsaken p := by
  obtain ⟨q, hq, _⟩ := A.entry k p entry
  obtain ⟨q', hq', fixed⟩ := C.peers k p q entry hq
  have owner : q'.owner = q.owner := congrArg (fun t => t.2.1) fixed
  rw [isForsaken_eq hq, isForsaken_eq hq', owner, (C.owners k p q entry hq).1]

theorem Accounted.carry (A : h.Accounted c ctx n) (C : h.Carries h' c ctx)
    (same : ctx'.accounts = ctx.accounts) : h'.Accounted c ctx' n := by
  have table : ctx'.registry.peers = ctx.registry.peers := congrArg Accounts.peers same
  have peer : ∀ k, ctx'.registry.peer? k = ctx.registry.peer? k := fun k => by
    rw [Registry.peer?, Registry.peer?, table]
  have queue : ctx'.reclaimer.queue = ctx.reclaimer.queue := congrArg (·.reclaimer.queue) same
  have pending : ctx'.reclaimer.pending = ctx.reclaimer.pending := congrArg (·.reclaimer.pending) same
  have released : ctx'.reclaimer.released = ctx.reclaimer.released :=
    congrArg (·.reclaimer.released) same
  have registered : ctx'.registry.registered = ctx.registry.registered :=
    congrArg Accounts.registered same
  have N := A.names.carry C peer
  refine
    { entry := fun k p entry => ?_
      own := fun k p c' ctx'' k' entry found entry' => ?_
      listed := N.listed
      nodup := queue ▸ A.nodup
      waiting := fun p hp => ?_
      size := by rw [table, released, registered]; exact A.size
      pending := ?_ }
  · obtain ⟨q', hq', owner⟩ := N.entry k p entry
    rw [peer] at entry
    obtain ⟨q, hq, live, _⟩ := A.entry k p entry
    obtain ⟨q'', hq'', fixed⟩ := C.peers k p q entry hq
    cases hq'.symm.trans hq''
    have live' : q'.released = q.released := congrArg (fun t => t.2.2) fixed
    exact ⟨q', hq', live'.trans live, owner⟩
  · rw [peer] at entry
    obtain ⟨ctx₀, found₀, entry₀⟩ := C.own k p c' ctx'' k' entry found entry'
    exact A.own k p c' ctx₀ k' entry found₀ entry₀
  · obtain ⟨k, entry⟩ := A.waiting p (queue ▸ hp)
    exact ⟨k, (peer k).trans entry⟩
  · rw [pending, table, A.pending]
    exact List.countP_congr (fun e he => by rw [C.isForsaken A (mem_entries he)])

/-! ### Changes keep the accounts -/

theorem Revises.carries {v : Option VectorId} {p : Option PeerId} (R : h.Revises v p h')
    (c : ContextId) (ctx : Context) : h.Carries h' c ctx where
  peers k i q _ hq := by
    obtain ⟨q', hq', fixed⟩ := exists_of_map_eq (R.peers i).symm hq
    exact ⟨q', hq', fixed.symm⟩
  owners k i q _ _ := ⟨R.contextOf q.owner, fun _ pointer => (R.peerOf q.owner).trans pointer⟩
  own k i c' ctx' k' _ found entry := by
    obtain ⟨ctx₀, found₀, same⟩ := exists_of_map_eq (R.contexts c') found
    refine ⟨ctx₀, found₀, ?_⟩
    have table : ctx'.registry.peers = ctx₀.registry.peers := congrArg Accounts.peers same
    rw [Registry.peer?, table] at entry
    exact entry
  listed o i q' own pointer hq' := by
    obtain ⟨q, hq, fixed⟩ := exists_of_map_eq (R.peers i) hq'
    exact ⟨q, (R.contextOf o).symm.trans own, (R.peerOf o).symm.trans pointer, hq,
      (congrArg Prod.fst fixed).symm⟩

theorem Revises.balanced {v : Option VectorId} {p : Option PeerId} (B : h.Balanced)
    (R : h.Revises v p h') : h'.Balanced := by
  intro c ctx' found'
  obtain ⟨ctx, found, same⟩ := exists_of_map_eq (R.contexts c) found'
  exact (B c ctx found).carry (R.carries c ctx) same

theorem Rebinds.carries (R : h.Rebinds h') (c : ContextId) (ctx : Context) :
    h.Carries h' c ctx := by
  have contexts : h'.contexts = h.contexts := by rw [R.rest]
  have peers : h'.peers = h.peers := by rw [R.rest]
  have contextOf : ∀ o, h'.contextOf? o = h.contextOf? o := by
    intro o
    rw [R.rest]
    cases o <;> rfl
  have peerOf : ∀ o, h'.peerOf? o = h.peerOf? o := by
    intro o
    rw [R.rest]
    cases o <;> rfl
  refine ⟨fun k p q _ hq => ⟨q, peers ▸ hq, rfl⟩, fun k p q _ _ => ?_, ?_, ?_⟩
  · exact ⟨contextOf q.owner, fun _ pointer => (peerOf q.owner).trans pointer⟩
  · exact fun k p c' ctx' k' _ found entry => ⟨ctx', contexts ▸ found, entry⟩
  · exact fun o p q' own pointer hq' =>
      ⟨q', (contextOf o).symm.trans own, (peerOf o).symm.trans pointer, peers ▸ hq', rfl⟩

theorem Rebinds.balanced (B : h.Balanced) (R : h.Rebinds h') : h'.Balanced := by
  intro c ctx found
  rw [R.rest] at found
  exact (B c ctx found).carry (R.carries c ctx) rfl

theorem Intact.context_issued (I : h.Intact) {o : Object} (own : h.contextOf? o = some c) :
    c.index < h.contexts.next := by
  cases o with
  | vector v =>
    obtain ⟨cell, found, rfl⟩ := Option.map_eq_some_iff.mp own
    obtain ⟨ctx, hctx⟩ := I.context_of_vector found
    exact Store.lt_next_of_find _ _ ctx hctx
  | string s =>
    obtain ⟨cell, found, rfl⟩ := Option.map_eq_some_iff.mp own
    exact (I.strings s cell found).issued

theorem Extends.carries (I : h.Intact) (E : h.Extends h') (c : ContextId) (ctx : Context)
    (pointers : ∀ o p, h'.contextOf? o = some c → h'.peerOf? o = some p → h.peerOf? o = some p)
    (registries : ∀ k p c' ctx' k', ctx.registry.peer? k = some p →
      h'.contexts.find? c' = some ctx' → ctx'.registry.peer? k' = some p →
      ∃ ctx₀, h.contexts.find? c' = some ctx₀ ∧ ctx₀.registry.peer? k' = some p) :
    h.Carries h' c ctx where
  peers k p q _ hq := ⟨q, E.peers p q hq, rfl⟩
  owners k p q _ hq := by
    refine ⟨?_, fun i pointer => E.peerOf pointer⟩
    cases own : h.contextOf? q.owner with
    | some c' => exact E.contextOf own
    | none =>
      cases own' : h'.contextOf? q.owner with
      | none => rfl
      | some c' =>
        have alive := E.revived _ (I.peers p q hq).issued (isAlive_iff_contextOf.mpr ⟨c', own'⟩)
        obtain ⟨c'', own''⟩ := isAlive_iff_contextOf.mp alive
        exact absurd (own.symm.trans own'') (by simp)
  own := registries
  listed o p q' own' pointer' hq' := by
    have pointer := pointers o p own' pointer'
    obtain ⟨q, hq, _⟩ := I.peer_of_object pointer
    obtain ⟨c', own⟩ := isAlive_iff_contextOf.mp (alive_of_peerOf pointer)
    cases (E.contextOf own).symm.trans own'
    exact ⟨q, own, pointer, hq, congrArg Peer.handle (Option.some.inj ((E.peers p q hq).symm.trans hq'))⟩

/-- An extension by objects without peers, and by contexts that list none. -/
structure PlainlyExtends (h h' : Heap) : Prop where
  pointers : ∀ o p, h'.peerOf? o = some p → h.peerOf? o = some p
  contexts : ∀ c ctx', h'.contexts.find? c = some ctx' →
    (∃ ctx, h.contexts.find? c = some ctx ∧ ctx'.registry = ctx.registry ∧
      ctx'.reclaimer = ctx.reclaimer) ∨
    (h.contexts.next ≤ c.index ∧ ∃ config, ctx' = .ofConfig config)

theorem peer_ofConfig (config : Config) (k : Handle) :
    (Context.ofConfig config).registry.peer? k = none := by
  simp [Context.ofConfig, Registry.ofConfig, Registry.peer?]

theorem PlainlyExtends.carries (I : h.Intact) (E : h.Extends h') (P : h.PlainlyExtends h')
    (c : ContextId) (ctx : Context) : h.Carries h' c ctx := by
  refine E.carries I c ctx (fun o p _ => P.pointers o p) ?_
  intro k p c' ctx' k' _ found' entry
  rcases P.contexts c' ctx' found' with ⟨ctx₀, found₀, registry, _⟩ | ⟨_, config, rfl⟩
  · exact ⟨ctx₀, found₀, registry ▸ entry⟩
  · exact absurd ((peer_ofConfig config k').symm.trans entry) (by simp)

/-- A context that is new lists nothing, and no object points at a peer in it. -/
theorem PlainlyExtends.names (I : h.Intact) (E : h.Extends h') (P : h.PlainlyExtends h')
    (late : h.contexts.next ≤ c.index) (config : Config) : h'.Names c (.ofConfig config) where
  entry k p entry := absurd ((peer_ofConfig config k).symm.trans entry) (by simp)
  listed o p q own' pointer _ := by
    obtain ⟨c', own⟩ := isAlive_iff_contextOf.mp (alive_of_peerOf (P.pointers o p pointer))
    cases (E.contextOf own).symm.trans own'
    exact absurd (I.context_issued own) (Nat.not_lt.mpr late)

theorem PlainlyExtends.balanced (I : h.Intact) (B : h.Balanced) (E : h.Extends h')
    (P : h.PlainlyExtends h') : h'.Balanced := by
  intro c ctx' found'
  rcases P.contexts c ctx' found' with ⟨ctx, found, registry, reclaimer⟩ | ⟨late, config, rfl⟩
  · have carried : h'.Accounted c ctx 0 := (B c ctx found).carry (P.carries I E c ctx) rfl
    exact
      { entry := registry ▸ carried.entry, own := registry ▸ carried.own
        listed := registry ▸ carried.listed, nodup := reclaimer ▸ carried.nodup
        waiting := by rw [registry, reclaimer]; exact carried.waiting
        size := by rw [registry, reclaimer]; exact carried.size
        pending := by rw [registry, reclaimer]; exact carried.pending }
  · have N := P.names I E late config
    refine
      { entry := fun k p entry => ?_
        own := fun k p _ _ _ entry => ?_
        listed := N.listed
        nodup := .nil, waiting := fun p hp => absurd hp (by simp [Context.ofConfig])
        size := rfl, pending := rfl }
    · exact absurd ((peer_ofConfig config k).symm.trans entry) (by simp)
    · exact absurd ((peer_ofConfig config k).symm.trans entry) (by simp)

/-! ### A new peer is listed -/

theorem contextOf_point (h : Heap) (o o' : Object) (p : PeerId) :
    (h.point o p).contextOf? o' = h.contextOf? o' := by
  cases o with
  | vector v =>
    cases o' with
    | vector w => exact h.vectors.map_find_modify v w _ (·.context) (fun _ _ => rfl)
    | string s => rfl
  | string s =>
    cases o' with
    | vector w => rfl
    | string w => exact h.strings.map_find_modify s w _ (·.context) (fun _ _ => rfl)

def listing (ctx : Context) (k : Handle) (p : PeerId) (site : String) : Context :=
  { ctx with registry := (ctx.registry.draw.enter k p site).countRegistered }

def listed (h : Heap) (c : ContextId) (k : Handle) (o : Object) (site : String) : Heap :=
  ((h.entered c k o site).modifyRegistry c (·.countRegistered)).point o h.peers.fresh

section
variable {c₀ : ContextId} {ctx₀ : Context} {o : Object} {k : Handle} {site : String}

theorem peers_listed (h : Heap) (c₀ : ContextId) (k : Handle) (o : Object) (site : String) :
    (h.listed c₀ k o site).peers = h.peers.add { handle := k, owner := o } := by
  rw [Heap.listed, peers_point]
  rfl

theorem contextOf_listed (h : Heap) (c₀ : ContextId) (k : Handle) (o o' : Object) (site : String) :
    (h.listed c₀ k o site).contextOf? o' = h.contextOf? o' := by
  rw [Heap.listed, contextOf_point]
  cases o' <;> rfl

theorem peerOf_listed (alive : h.isAlive o = true) (o' : Object) :
    (h.listed c₀ k o site).peerOf? o' = if o = o' then some h.peers.fresh else h.peerOf? o' := by
  have alive' : ((h.entered c₀ k o site).modifyRegistry c₀ (·.countRegistered)).isAlive o = true := by
    cases o <;> exact alive
  rw [Heap.listed, peerOf_point alive']
  cases o' <;> rfl

theorem context_listed (found : h.contexts.find? c₀ = some ctx₀) :
    (h.listed c₀ k o site).contexts.find? c₀ =
      some (listing ctx₀ k h.peers.fresh site) := by
  rw [Heap.listed, contexts_point]
  refine (Store.find_modify_self _ c₀ _).trans ?_
  refine (congrArg (Option.map _) ((Store.find_modify_self _ c₀ _).trans
    (congrArg (Option.map _) found))).trans ?_
  rfl

theorem context_listed_ne (other : c₀ ≠ c) :
    (h.listed c₀ k o site).contexts.find? c = h.contexts.find? c := by
  rw [Heap.listed, contexts_point]
  exact (Store.find_modify_ne _ _ other).trans (Store.find_modify_ne _ _ other)

theorem peer_listing {p i : PeerId} {k' : Handle} :
    (listing ctx₀ k p site).registry.peer? k' = some i ↔
      (k' = k ∧ i = p) ∨ (k' ≠ k ∧ ctx₀.registry.peer? k' = some i) :=
  (peer_entered : (ctx₀.registry.draw.enter k p site).peer? k' = some i ↔ _)

theorem find_listed_of_find {i : PeerId} {q : Peer} (found : h.peers.find? i = some q) :
    (h.listed c₀ k o site).peers.find? i = some q := by
  rw [peers_listed]
  exact Store.find_add_of_find _ found

theorem find_listed_fresh :
    (h.listed c₀ k o site).peers.find? h.peers.fresh = some { handle := k, owner := o } := by
  rw [peers_listed]
  exact h.peers.find_add_fresh _

theorem ne_fresh_of_find {i : PeerId} {q : Peer} (found : h.peers.find? i = some q) :
    i ≠ h.peers.fresh := by
  rintro rfl
  exact absurd (h.peers.find_fresh.symm.trans found) (by simp)

theorem listed_carries (I : h.Intact) (N : h.Names c ctx)
    (found : h.contexts.find? c₀ = some ctx₀) (own : h.contextOf? o = some c₀) (other : c₀ ≠ c)
    (E : h.Extends (h.listed c₀ k o site)) : h.Carries (h.listed c₀ k o site) c ctx := by
  have alive : h.isAlive o = true := isAlive_iff_contextOf.mpr ⟨c₀, own⟩
  refine E.carries I c ctx (fun o' p own' pointer => ?_) (fun k₁ p c' ctx' k' entry there entry' => ?_)
  · rw [peerOf_listed alive] at pointer
    split at pointer
    · rename_i same
      subst same
      rw [contextOf_listed, own] at own'
      exact absurd (Option.some.inj own') other
    · exact pointer
  · by_cases same : c₀ = c'
    · subst same
      rw [context_listed found] at there
      cases there
      obtain ⟨q, hq, _⟩ := N.entry k₁ p entry
      rcases peer_listing.mp entry' with ⟨_, new⟩ | ⟨_, old⟩
      · exact absurd new (ne_fresh_of_find hq)
      · exact ⟨ctx₀, found, old⟩
    · exact ⟨ctx', (context_listed_ne same).symm.trans there, entry'⟩

theorem listed_names (I : h.Intact) (N : h.Names c₀ ctx₀) (own : h.contextOf? o = some c₀)
    (bare : h.peerOf? o = none) (free : ctx₀.registry.peer? k = none) :
    (h.listed c₀ k o site).Names c₀ (listing ctx₀ k h.peers.fresh site) := by
  have alive : h.isAlive o = true := isAlive_iff_contextOf.mpr ⟨c₀, own⟩
  refine ⟨fun k' p entry => ?_, fun o' p q' own' pointer hq' => ?_⟩
  · rcases peer_listing.mp entry with ⟨rfl, rfl⟩ | ⟨_, old⟩
    · refine ⟨_, find_listed_fresh, fun c' own' => ?_⟩
      rw [contextOf_listed, own] at own'
      exact ⟨(Option.some.inj own').symm, by rw [peerOf_listed alive, if_pos rfl]⟩
    · obtain ⟨q, hq, owner⟩ := N.entry k' p old
      refine ⟨q, find_listed_of_find hq, fun c' own' => ?_⟩
      rw [contextOf_listed] at own'
      obtain ⟨context, pointer⟩ := owner c' own'
      have other : o ≠ q.owner := by
        rintro rfl
        exact absurd (bare.symm.trans pointer) (by simp)
      exact ⟨context, by rw [peerOf_listed alive, if_neg other]; exact pointer⟩
  · rw [contextOf_listed] at own'
    rw [peerOf_listed alive] at pointer
    split at pointer
    · cases pointer
      cases find_listed_fresh.symm.trans hq'
      exact peer_listing.mpr (.inl ⟨rfl, rfl⟩)
    · obtain ⟨q, hq, _⟩ := I.peer_of_object pointer
      cases (find_listed_of_find hq).symm.trans hq'
      have old := N.listed o' p _ own' pointer hq
      refine peer_listing.mpr (.inr ⟨fun same => ?_, old⟩)
      exact absurd (free.symm.trans (same ▸ old)) (by simp)

theorem listed_accounted (I : h.Intact) (B : h.Balanced) (found : h.contexts.find? c₀ = some ctx₀)
    (own : h.contextOf? o = some c₀) (bare : h.peerOf? o = none)
    (free : ctx₀.registry.peer? k = none) :
    (h.listed c₀ k o site).Accounted c₀ (listing ctx₀ k h.peers.fresh site) 0 := by
  have A := B c₀ ctx₀ found
  have alive : h.isAlive o = true := isAlive_iff_contextOf.mpr ⟨c₀, own⟩
  have forsaken : ∀ k' p, ctx₀.registry.peer? k' = some p →
      (h.listed c₀ k o site).isForsaken p = h.isForsaken p := by
    intro k' p entry
    obtain ⟨q, hq, _⟩ := A.entry k' p entry
    rw [isForsaken_eq hq, isForsaken_eq (find_listed_of_find hq), contextOf_listed]
  have entries : (listing ctx₀ k h.peers.fresh site).registry.peers.entries =
      ctx₀.registry.peers.entries ++ [(k, h.peers.fresh)] :=
    Assoc.insert_fresh ctx₀.registry.peers.entries k h.peers.fresh free
  have N : (h.listed c₀ k o site).Names c₀ _ := listed_names I A.names own bare free
  refine
    { entry := fun k' p entry => ?_, own := fun k' p c' ctx' k'' entry there entry' => ?_
      listed := N.listed, nodup := A.nodup
      waiting := fun p hp => ?_, size := ?_, pending := ?_ }
  · obtain ⟨q', hq', owner⟩ := N.entry k' p entry
    refine ⟨q', hq', ?_, owner⟩
    rcases peer_listing.mp entry with ⟨rfl, rfl⟩ | ⟨_, old⟩
    · cases find_listed_fresh.symm.trans hq'
      rfl
    · obtain ⟨q, hq, live, _⟩ := A.entry k' p old
      cases (find_listed_of_find hq).symm.trans hq'
      exact live
  · by_cases same : c₀ = c'
    · exact same.symm
    · rw [context_listed_ne same] at there
      obtain ⟨q', hq', _⟩ := (B c' ctx' there).entry k'' p entry'
      rcases peer_listing.mp entry with ⟨_, new⟩ | ⟨_, old⟩
      · exact absurd new (ne_fresh_of_find hq')
      · exact A.own k' p c' ctx' k'' old there entry'
  · obtain ⟨k', old⟩ := A.waiting p hp
    refine ⟨k', peer_listing.mpr (.inr ⟨fun same => ?_, old⟩)⟩
    exact absurd (free.symm.trans (same ▸ old)) (by simp)
  · have size := A.size
    simp only [Table.size] at size ⊢
    rw [entries, List.length_append, List.length_singleton]
    change ctx₀.registry.peers.entries.length + 1 + ctx₀.reclaimer.released =
      ctx₀.registry.registered + 1
    omega
  · have pending := A.pending
    rw [entries, List.countP_append, List.countP_singleton, isForsaken_eq find_listed_fresh,
      contextOf_listed, own]
    rw [List.countP_congr (fun e he => by rw [forsaken e.1 e.2 (mem_entries he)])]
    exact pending

theorem listed_balanced (I : h.Intact) (B : h.Balanced) (found : h.contexts.find? c₀ = some ctx₀)
    (own : h.contextOf? o = some c₀) (bare : h.peerOf? o = none)
    (free : ctx₀.registry.peer? k = none) (E : h.Extends (h.listed c₀ k o site)) :
    (h.listed c₀ k o site).Balanced := by
  intro c ctx' found'
  by_cases same : c₀ = c
  · subst same
    rw [context_listed found] at found'
    cases found'
    exact listed_accounted I B found own bare free
  · rw [context_listed_ne same] at found'
    have A := B c ctx' found'
    exact A.carry (listed_carries I A.names found own same E) rfl

end

theorem Growth.listed_or_plain (G : h.Growth h') :
    (∃ c ctx o site, h.contexts.find? c = some ctx ∧ h.contextOf? o = some c ∧
      h.peerOf? o = none ∧ ctx.registry.peer? ctx.registry.nextHandle = none ∧
      h' = h.listed c ctx.registry.nextHandle o site) ∨ h.PlainlyExtends h' := by
  cases G with
  | peer c ctx o site found own bare free => exact .inl ⟨c, ctx, o, site, found, own, bare, free, rfl⟩
  | context config =>
    refine .inr ⟨fun _ _ => id, fun c ctx' found' => ?_⟩
    rcases Store.eq_or_find_of_find_add found' with ⟨rfl, rfl⟩ | old
    · exact .inr ⟨Nat.le_refl _, config, rfl⟩
    · exact .inl ⟨ctx', old, rfl, rfl⟩
  | buffer foreign n nonzero =>
    exact .inr ⟨fun _ _ => id, fun c ctx' found' => .inl ⟨ctx', found', rfl, rfl⟩⟩
  | vector cell b addable =>
    refine .inr ⟨fun o p pointer => ?_, fun c ctx' found' => .inl ⟨ctx', found', rfl, rfl⟩⟩
    cases o with
    | string s => exact pointer
    | vector w =>
      obtain ⟨cell', found', hp⟩ := Option.bind_eq_some_iff.mp pointer
      rcases Store.eq_or_find_of_find_add found' with ⟨rfl, rfl⟩ | old
      · exact absurd (addable.peer.symm.trans hp) (by simp)
      · exact Option.bind_eq_some_iff.mpr ⟨cell', old, hp⟩
  | string cell bare alive =>
    refine .inr ⟨fun o p pointer => ?_, fun c ctx' found' => .inl ⟨ctx', found', rfl, rfl⟩⟩
    cases o with
    | vector w => exact pointer
    | string s =>
      obtain ⟨cell', found', hp⟩ := Option.bind_eq_some_iff.mp pointer
      rcases Store.eq_or_find_of_find_add found' with ⟨rfl, rfl⟩ | old
      · exact absurd (bare.symm.trans hp) (by simp)
      · exact Option.bind_eq_some_iff.mpr ⟨cell', old, hp⟩
  | naString c ctx s cell found unnamed string own na =>
    refine .inr ⟨fun o p pointer => by cases o <;> exact pointer, fun i ctx' found' => ?_⟩
    by_cases same : c = i
    · subst same
      rw [Heap.nameNA, modifyContext, Store.find_modify_self, found] at found'
      cases found'
      exact .inl ⟨ctx, found, rfl, rfl⟩
    · exact .inl ⟨ctx', (h.contexts.find_modify_ne _ same).symm.trans found', rfl, rfl⟩

theorem Growth.balanced (I : h.Intact) (B : h.Balanced) (G : h.Growth h') : h'.Balanced := by
  have E := G.extends I
  rcases G.listed_or_plain with ⟨c, ctx, o, site, found, own, bare, free, rfl⟩ | P
  · exact listed_balanced I B found own bare free E
  · exact P.balanced I B E

theorem Change.balanced {T : VectorId → Prop} {B : BufferId → Prop} (I : h.Intact)
    (balanced : h.Balanced) (C : Change T B h h') : h'.Balanced := by
  cases C with
  | growth G => exact G.balanced I balanced
  | update v cell s own U metered buffers => exact U.revises.balanced balanced
  | environs R buffers => exact R.balanced balanced
  | text s cell p found pointer R metered formed buffers => exact R.balanced balanced

theorem Moves.balanced {T : VectorId → Prop} {B : BufferId → Prop} (I : h.Intact)
    (balanced : h.Balanced) (M : Moves T B h h') : h'.Balanced := by
  induction M with
  | refl => exact balanced
  | tail first last ih => exact last.balanced (first.intact I) ih

theorem Advances.balanced {T : VectorId → Prop} {B : BufferId → Prop} (I : h.Intact)
    (balanced : h.Balanced) (A : h.Advances T B h') : h'.Balanced := by
  obtain ⟨h₁, M, rfl | R⟩ := A
  · exact M.balanced I balanced
  · exact R.balanced (M.balanced I balanced)

end Heap
end VectorHeap
