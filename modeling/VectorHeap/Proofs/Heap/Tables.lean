import VectorHeap.Proofs.Heap.Grounded

/-! The debugging tables of a context. The index of addresses follows the blocks of the peers that the
context lists, and the sites follow its entries, but for the gaps that releases under way make. That
rests on the roll of the context: it lists the peers of its objects until they are released, and nobody
else has those peers. -/
namespace VectorHeap

/-! ### Lookups in the tables -/

namespace Registry

variable {r : Registry} {k k' : Handle} {a : Address} {p i : PeerId}

theorem handleAt_unindex (r : Registry) (b : Backing) (a : Address) :
    (r.unindex b).handleAt? a = if b.owned?.map Prod.fst = some a then none else r.handleAt? a := by
  cases b with
  | owned address bytes =>
    unfold unindex handleAt?
    cases r.byAddress with
    | none => simp
    | some t => simp [Table.find_erase, Backing.owned?]
  | _ => rfl

theorem handleAt_dropContents (r : Registry) (b : Backing) (a : Address) :
    (r.dropContents b).handleAt? a =
      if b.owned?.map Prod.fst = some a then none else r.handleAt? a := by
  cases b with
  | owned address bytes => exact handleAt_unindex r _ a
  | _ => rfl

theorem handleAt_addContents (on : r.byAddress.isSome = true) (k : Handle) (b : Backing) (a : Address) :
    (r.addContents k b).handleAt? a =
      if b.owned?.map Prod.fst = some a then some k else r.handleAt? a := by
  cases b with
  | owned address bytes =>
    obtain ⟨t, table⟩ := Option.isSome_iff_exists.mp on
    simp [addContents, handleAt?, table, Table.find_insert, Backing.owned?]
  | _ => rfl

theorem peer_delist (r : Registry) (k k' : Handle) :
    (r.delist k).peer? k' = if k = k' then none else r.peer? k' :=
  Table.find_erase ..

theorem site_forgetSite (r : Registry) (k k' : Handle) :
    (r.forgetSite k).site? k' = if k = k' then none else r.site? k' := by
  unfold forgetSite site?
  cases r.sites with
  | none => simp
  | some t => simp [Table.find_erase]

end Registry

/-- Addresses and handles about which the tables need not be right. -/
structure Gaps where
  address : Address → Prop := fun _ => False
  handle : Handle → Prop := fun _ => False

namespace Heap

variable {T : VectorId → Backing → Prop} {P : ContextId → PeerId → Prop} {h h' : Heap} {c d : ContextId}
  {ctx ctx' : Context} {o : Object} {p : PeerId} {gaps gaps' : Gaps}

/-! ### The roll of a context -/

/-- A context lists the peers of its objects until they are released, and what is listed is no peer of
an object of another context, nor does it wait there. -/
structure Roll (h : Heap) (c : ContextId) (ctx : Context) : Prop where
  entry : ∀ k p, ctx.registry.peer? k = some p → ∃ q, h.peers.find? p = some q ∧ q.handle = k
  listed : ∀ o p q, h.contextOf? o = some c → h.peerOf? o = some p → h.peers.find? p = some q →
    ctx.registry.peer? q.handle = some p
  apart : ∀ o d p k, h.contextOf? o = some d → h.peerOf? o = some p →
    ctx.registry.peer? k = some p → d = c
  waiting : ∀ d ctx' p k, h.contexts.find? d = some ctx' → p ∈ ctx'.reclaimer.queue →
    ctx.registry.peer? k = some p → d = c

theorem Roll.carry (R : h.Roll c ctx) (same : ∀ k, ctx'.registry.peer? k = ctx.registry.peer? k)
    (peers : ∀ k p q, ctx.registry.peer? k = some p → h.peers.find? p = some q →
      ∃ q', h'.peers.find? p = some q' ∧ q'.handle = q.handle)
    (listed : ∀ o p q', h'.contextOf? o = some c → h'.peerOf? o = some p → h'.peers.find? p = some q' →
      ∃ q, h.contextOf? o = some c ∧ h.peerOf? o = some p ∧ h.peers.find? p = some q ∧
        q.handle = q'.handle)
    (apart : ∀ o d p k, h'.contextOf? o = some d → h'.peerOf? o = some p →
      ctx.registry.peer? k = some p → h.contextOf? o = some d ∧ h.peerOf? o = some p)
    (waiting : ∀ d ctx'' p k, h'.contexts.find? d = some ctx'' → p ∈ ctx''.reclaimer.queue →
      ctx.registry.peer? k = some p → d = c ∨
        ∃ ctx₀, h.contexts.find? d = some ctx₀ ∧ p ∈ ctx₀.reclaimer.queue) : h'.Roll c ctx' where
  entry k p entry := by
    rw [same] at entry
    obtain ⟨q, hq, handle⟩ := R.entry k p entry
    obtain ⟨q', hq', handle'⟩ := peers k p q entry hq
    exact ⟨q', hq', handle'.trans handle⟩
  listed o p q' own pointer hq' := by
    obtain ⟨q, own', pointer', hq, handle⟩ := listed o p q' own pointer hq'
    rw [same, ← handle]
    exact R.listed o p q own' pointer' hq
  apart o d p k own pointer entry := by
    rw [same] at entry
    obtain ⟨own', pointer'⟩ := apart o d p k own pointer entry
    exact R.apart o d p k own' pointer' entry
  waiting d ctx'' p k found queued entry := by
    rw [same] at entry
    rcases waiting d ctx'' p k found queued entry with this | ⟨ctx₀, found₀, queued₀⟩
    · exact this
    · exact R.waiting d ctx₀ p k found₀ queued₀ entry

/-! ### The tables of a context -/

/-- The tables are there as configured, and outside their gaps they follow what the context lists. -/
structure Tables (h : Heap) (gaps : Gaps) (ctx : Context) : Prop where
  indexes : ctx.registry.byAddress.isSome = ctx.config.addressIndex
  index : ctx.config.addressIndex = true → ∀ a, ¬ gaps.address a → ∀ k,
    ctx.registry.handleAt? a = some k ↔
      ∃ p, ctx.registry.peer? k = some p ∧ h.address? (.block p) = some a
  traces : ctx.registry.sites.isSome = ctx.config.traceSites
  sites : ctx.config.traceSites = true → ∀ k, ¬ gaps.handle k →
    (ctx.registry.site? k).isSome = (ctx.registry.peer? k).isSome

theorem Tables.widen (t : h.Tables gaps ctx) (address : ∀ a, gaps.address a → gaps'.address a)
    (handle : ∀ k, gaps.handle k → gaps'.handle k) : h.Tables gaps' ctx :=
  ⟨t.indexes, fun on a open_ => t.index on a (fun gap => open_ (address a gap)), t.traces,
    fun on k open_ => t.sites on k (fun gap => open_ (handle k gap))⟩

theorem Tables.carry (t : h.Tables gaps ctx) (config : ctx'.config = ctx.config)
    (peers : ctx'.registry.peers = ctx.registry.peers)
    (byAddress : ctx'.registry.byAddress = ctx.registry.byAddress)
    (sites : ctx'.registry.sites = ctx.registry.sites)
    (stay : ∀ k p, ctx.registry.peer? k = some p → h'.address? (.block p) = h.address? (.block p)) :
    h'.Tables gaps ctx' where
  indexes := by rw [byAddress, config]; exact t.indexes
  index on a sound k := by
    rw [config] at on
    simp only [Registry.handleAt?, Registry.peer?, byAddress, peers]
    refine (t.index on a sound k).trans (exists_congr (fun p => ?_))
    exact and_congr_right (fun entry => by rw [stay k p entry])
  traces := by rw [sites, config]; exact t.traces
  sites on k sound := by
    rw [config] at on
    simp only [Registry.site?, Registry.peer?, sites, peers]
    exact t.sites on k sound

theorem tabled_of_same (t : h.Roll c ctx ∧ h.Tables gaps ctx) (vectors : h'.vectors = h.vectors)
    (strings : h'.strings = h.strings)
    (peers : h'.peers = h.peers)
    (queues : ∀ d ctx'', h'.contexts.find? d = some ctx'' → ∀ p ∈ ctx''.reclaimer.queue,
      ∃ ctx₀, h.contexts.find? d = some ctx₀ ∧ p ∈ ctx₀.reclaimer.queue)
    (config : ctx'.config = ctx.config) (registry : ctx'.registry = ctx.registry) :
    h'.Roll c ctx' ∧ h'.Tables gaps ctx' := by
  have objects := objects_of_same vectors strings
  refine ⟨t.1.carry (fun k => by rw [registry]) (fun k p q _ hq => ⟨q, peers ▸ hq, rfl⟩)
    (fun o p q own pointer hq => ⟨q, (objects o).1 ▸ own, (objects o).2 ▸ pointer, peers ▸ hq, rfl⟩)
    (fun o d p k own pointer _ => ⟨(objects o).1 ▸ own, (objects o).2 ▸ pointer⟩)
    (fun d ctx'' p k found'' queued _ => .inr (queues d ctx'' found'' p queued)), ?_⟩
  refine t.2.carry config (by rw [registry]) (by rw [registry]) (by rw [registry]) (fun _ p _ => ?_)
  simp only [address?, peers]

def TabledIn (h : Heap) (gaps : Gaps) (c : ContextId) : Prop :=
  ∀ ctx, h.contexts.find? c = some ctx → h.Roll c ctx ∧ h.Tables gaps ctx

theorem TabledIn.widen (t : h.TabledIn gaps c) (address : ∀ a, gaps.address a → gaps'.address a)
    (handle : ∀ k, gaps.handle k → gaps'.handle k) : h.TabledIn gaps' c :=
  fun ctx found => (t ctx found).imp_right (·.widen address handle)

/-! ### Postings keep them -/

theorem Quiet.own_back (Q : h.Quiet h') (own : h'.contextOf? o = some d) (pointer : h'.peerOf? o = some p) :
    h.contextOf? o = some d ∧ h.peerOf? o = some p := by
  have pointer₀ := (Q.pointers o).symm.trans pointer
  obtain ⟨d', own'⟩ := isAlive_iff_contextOf.mp (alive_of_peerOf pointer₀)
  cases (Q.own o d' own').symm.trans own
  exact ⟨own', pointer₀⟩

theorem Quiet.tabledIn (Q : h.Quiet h') (t : h.TabledIn gaps c) : h'.TabledIn gaps c := by
  intro ctx' found'
  obtain ⟨ctx, found, same⟩ := exists_of_map_eq (Q.contexts c) found'
  have registry : ctx'.registry = ctx.registry := congrArg (·.2.1) same
  obtain ⟨R, t⟩ := t ctx found
  refine ⟨R.carry (fun k => by rw [registry]) (fun k p q _ hq => ?_) (fun o p q' own pointer hq' => ?_)
    (fun o d p k own pointer _ => Q.own_back own pointer) (fun d ctx'' p k found'' queued _ => .inr ?_),
    t.carry (congrArg (·.1) same) (by rw [registry]) (by rw [registry]) (by rw [registry])
      (fun k p _ => Q.address _)⟩
  · obtain ⟨q', hq', outline⟩ := exists_of_map_eq (Q.peers p).symm hq
    exact ⟨q', hq', (congrArg (·.1) outline).symm⟩
  · obtain ⟨own₀, pointer₀⟩ := Q.own_back own pointer
    obtain ⟨q, hq, outline⟩ := exists_of_map_eq (Q.peers p) hq'
    exact ⟨q, own₀, pointer₀, hq, (congrArg (·.1) outline).symm⟩
  · obtain ⟨ctx₀, found₀, books⟩ := exists_of_map_eq (Q.contexts d) found''
    have reclaimer : ctx''.reclaimer = ctx₀.reclaimer := congrArg (·.2.2.1) books
    exact ⟨ctx₀, found₀, reclaimer ▸ queued⟩

theorem Tables.ofConfig (h : Heap) (config : Config) : h.Tables gaps (.ofConfig config) where
  indexes := by
    change (if config.addressIndex then some Table.empty else none : Option (Table Address Handle)).isSome =
      config.addressIndex
    cases config.addressIndex <;> rfl
  index on a _ k := by
    have none : (Context.ofConfig config).registry.handleAt? a = none := by
      change (if config.addressIndex then some Table.empty else none).bind _ = _
      cases config.addressIndex <;> rfl
    rw [none]
    refine ⟨fun found => absurd found (by simp), fun ⟨p, entry, _⟩ => ?_⟩
    exact absurd ((peer_ofConfig config k).symm.trans entry) (by simp)
  traces := by
    change (if config.traceSites then some Table.empty else none : Option (Table Handle String)).isSome =
      config.traceSites
    cases config.traceSites <;> rfl
  sites on k _ := by
    have none : (Context.ofConfig config).registry.site? k = none := by
      change (if config.traceSites then some Table.empty else none).bind _ = _
      cases config.traceSites <;> rfl
    rw [none, peer_ofConfig]
    rfl

theorem Tables.listing (t : h.Tables gaps ctx) (k : Handle) (site : String)
    (free : ctx.registry.peer? k = none) (same : ∀ x, h'.address? x = h.address? x)
    (bare : h.address? (.block p) = none) : h'.Tables gaps (Heap.listing ctx k p site) where
  indexes := t.indexes
  index on a sound k' := by
    refine (t.index on a sound k').trans (exists_congr (fun i => ?_))
    rw [same, peer_listing]
    constructor
    · rintro ⟨entry, there⟩
      refine ⟨.inr ⟨?_, entry⟩, there⟩
      rintro rfl
      exact absurd (free.symm.trans entry) (by simp)
    · rintro ⟨⟨_, rfl⟩ | ⟨_, entry⟩, there⟩
      · exact absurd (bare.symm.trans there) (by simp)
      · exact ⟨entry, there⟩
  traces := by
    change (ctx.registry.sites.map _).isSome = _
    rw [Option.isSome_map]
    exact t.traces
  sites on k' sound := by
    have old := t.sites on k' sound
    obtain ⟨sites, table⟩ := Option.isSome_iff_exists.mp (t.traces.trans on)
    change ((ctx.registry.sites.map (·.insert k site)).bind (·.find? k')).isSome =
      ((ctx.registry.peers.insert k p).find? k').isSome
    simp only [Registry.site?, Registry.peer?, table, Option.bind_some, Option.map_some,
      Table.find_insert] at old ⊢
    split
    · rfl
    · exact old

theorem Tables.rebacked {q : Peer} {b : Backing} (t : h.Tables gaps ctx) (R : h.Roll c ctx)
    (hq : h.peers.find? p = some q) (listed : ctx.registry.peer? q.handle = some p)
    (spaced : h.Spaced) (spaced' : h'.Spaced)
    (others : ∀ i, i ≠ p → h'.address? (.block i) = h.address? (.block i))
    (moved : h'.address? (.block p) = b.owned?.map Prod.fst) :
    h'.Tables gaps
      { ctx with registry := (ctx.registry.dropContents q.backing).addContents q.handle b } := by
  have lay : h.address? (.block p) = q.backing.owned?.map Prod.fst := by rw [address?, hq]; rfl
  have entries := fun k => peer_rebacked ctx.registry q.backing b q.handle k
  have sites : ((ctx.registry.dropContents q.backing).addContents q.handle b).sites =
      ctx.registry.sites := by cases b <;> cases q.backing <;> rfl
  have indexes := isSome_byAddress_dropContents ctx.registry q.backing
  refine { indexes := ?_, index := fun on a sound k => ?_, traces := ?_, sites := fun on k sound => ?_ }
  · exact (isSome_byAddress_addContents _ _ b).trans (indexes.trans t.indexes)
  · have on' := indexes.trans (t.indexes.trans on)
    rw [Registry.handleAt_addContents on', Registry.handleAt_dropContents]
    simp only [entries]
    -- The index at an address is by the new block there, else by the old one gone, else as it was.
    by_cases here : b.owned?.map Prod.fst = some a
    · rw [if_pos here]
      constructor
      · rintro same
        cases same
        exact ⟨p, listed, moved.trans here⟩
      · rintro ⟨i, entry, there⟩
        cases spaced' _ _ a there (moved.trans here)
        obtain ⟨q', hq', handle⟩ := R.entry k p entry
        cases hq.symm.trans hq'
        rw [handle]
    · rw [if_neg here]
      have other : ∀ i, h'.address? (.block i) = some a → i ≠ p := by
        rintro i there rfl
        exact here (moved.symm.trans there)
      by_cases left : q.backing.owned?.map Prod.fst = some a
      · rw [if_pos left]
        refine ⟨fun none => absurd none (by simp), ?_⟩
        rintro ⟨i, entry, there⟩
        have differs := other i there
        rw [others i differs] at there
        cases spaced _ _ a there (lay.trans left)
        exact absurd rfl differs
      · rw [if_neg left, t.index on a sound k]
        refine exists_congr (fun i => and_congr_right (fun _ => ?_))
        by_cases this : i = p
        · subst this
          rw [lay, moved]
          exact iff_of_false left here
        · rw [others i this]
  · rw [sites]
    exact t.traces
  · have same : ∀ k, ((ctx.registry.dropContents q.backing).addContents q.handle b).site? k =
        ctx.registry.site? k := fun k => by rw [Registry.site?, sites, Registry.site?]
    rw [same, entries]
    exact t.sites on k sound

theorem Roll.entered (R : h.Roll c ctx) (G : h.Grounded) {k : Handle} (site : String)
    (own : h.contextOf? o = some c)
    (free : ctx.registry.peer? k = none) :
    (h.listed c k o site).Roll c (listing ctx k h.peers.fresh site) := by
  have alive : h.isAlive o = true := isAlive_iff_contextOf.mpr ⟨c, own⟩
  refine ⟨fun k' p entry => ?_, fun o' p q' own' pointer hq' => ?_, fun o' d p k' own' pointer entry => ?_,
    fun d ctx'' p k' found'' queued entry => ?_⟩
  · rcases peer_listing.mp entry with ⟨rfl, rfl⟩ | ⟨_, old⟩
    · exact ⟨_, find_listed_fresh, rfl⟩
    · obtain ⟨q, hq, same⟩ := R.entry k' p old
      exact ⟨q, find_listed_of_find hq, same⟩
  · rw [contextOf_listed] at own'
    rw [peerOf_listed alive] at pointer
    split at pointer
    · cases pointer
      cases find_listed_fresh.symm.trans hq'
      exact peer_listing.mpr (.inl ⟨rfl, rfl⟩)
    · obtain ⟨q, hq⟩ := G p (.pointer o' pointer)
      cases (find_listed_of_find hq).symm.trans hq'
      have old := R.listed o' p _ own' pointer hq
      refine peer_listing.mpr (.inr ⟨fun same => ?_, old⟩)
      exact absurd (free.symm.trans (same ▸ old)) (by simp)
  · rw [contextOf_listed] at own'
    rw [peerOf_listed alive] at pointer
    split at pointer
    · rename_i same
      subst same
      exact (Option.some.inj (own.symm.trans own')).symm
    · rcases peer_listing.mp entry with ⟨_, rfl⟩ | ⟨_, old⟩
      · exact absurd rfl (G.ne_fresh (.pointer o' pointer))
      · exact R.apart o' d p k' own' pointer old
  · by_cases this : c = d
    · exact this.symm
    · have there := (context_listed_ne this).symm.trans found''
      rcases peer_listing.mp entry with ⟨_, rfl⟩ | ⟨_, old⟩
      · exact absurd rfl (G.ne_fresh (.queued d ctx'' there queued))
      · exact R.waiting d ctx'' p k' there queued old

theorem Roll.entered_elsewhere (R : h.Roll c ctx) (G : h.Grounded) {ctx₀ : Context} {k : Handle}
    {site : String}
    (found : h.contexts.find? c = some ctx) (found₀ : h.contexts.find? d = some ctx₀)
    (own : h.contextOf? o = some d) (other : d ≠ c) : (h.listed d k o site).Roll c ctx := by
  have alive : h.isAlive o = true := isAlive_iff_contextOf.mpr ⟨d, own⟩
  have ne_fresh : ∀ k p, ctx.registry.peer? k = some p → p ≠ h.peers.fresh :=
    fun k p entry => G.ne_fresh (.entry c ctx k found entry)
  refine R.carry (fun _ => rfl) (fun k p q _ hq => ⟨q, find_listed_of_find hq, rfl⟩)
    (fun o' p q' own' pointer hq' => ?_) (fun o' e p k own' pointer entry => ?_)
    (fun e ctx'' p k found'' queued _ => ?_)
  · rw [contextOf_listed] at own'
    rw [peerOf_listed alive] at pointer
    split at pointer
    · rename_i same
      subst same
      exact absurd (Option.some.inj (own.symm.trans own')) other
    · obtain ⟨q, hq⟩ := G p (.pointer o' pointer)
      cases (find_listed_of_find hq).symm.trans hq'
      exact ⟨_, own', pointer, hq, rfl⟩
  · rw [contextOf_listed] at own'
    rw [peerOf_listed alive] at pointer
    split at pointer
    · exact absurd (Option.some.inj pointer).symm (ne_fresh k p entry)
    · exact ⟨own', pointer⟩
  · by_cases this : d = e
    · subst this
      cases (context_listed found₀).symm.trans found''
      exact .inr ⟨ctx₀, found₀, queued⟩
    · exact .inr ⟨ctx'', (context_listed_ne this).symm.trans found'', queued⟩

theorem Roll.rebacked (R : h.Roll c ctx) (same : ∀ k, ctx'.registry.peer? k = ctx.registry.peer? k)
    (i : ContextId) (q : Peer) (b : Backing) : (h.rebacked i p q b).Roll c ctx' := by
  have kept : ∀ p', ((h.rebacked i p q b).peers.find? p').map (·.handle) =
      (h.peers.find? p').map (·.handle) :=
    fun p' => h.peers.map_find_modify p p' _ _ (fun _ _ => rfl)
  refine R.carry same (fun k p' q' _ hq => ?_) (fun o p' q' own pointer hq' => ?_)
    (fun o d p' k own pointer _ => ?_) (fun d ctx'' p' k found'' queued _ => .inr ?_)
  · obtain ⟨q'', hq'', handle⟩ := exists_of_map_eq (kept p').symm hq
    exact ⟨q'', hq'', handle.symm⟩
  · obtain ⟨q'', hq'', handle⟩ := exists_of_map_eq (kept p') hq'
    refine ⟨q'', ?_, ?_, hq'', handle.symm⟩
    · cases o <;> exact own
    · cases o <;> exact pointer
  · exact ⟨by cases o <;> exact own, by cases o <;> exact pointer⟩
  · obtain ⟨ctx₀, found₀, reclaimer⟩ := exists_of_map_eq (h.contexts.map_find_modify i d
      (fun ctx => { ctx with registry := (ctx.registry.dropContents q.backing).addContents q.handle b })
      (·.reclaimer) (fun _ _ => rfl)) found''
    exact ⟨ctx₀, found₀, reclaimer ▸ queued⟩

theorem TabledIn.addContext (t : h.TabledIn gaps c) (config : Config)
    (unclaimed : ∀ o, h.contextOf? o ≠ some h.contexts.fresh) :
    TabledIn { h with contexts := h.contexts.add (.ofConfig config) } gaps c := by
  intro ctx' found'
  rcases Store.eq_or_find_of_find_add found' with ⟨rfl, rfl⟩ | old
  · refine ⟨⟨fun k p entry => ?_, fun o p q own _ _ => ?_, fun o d p k _ _ entry => ?_,
      fun d ctx'' p k _ _ entry => ?_⟩, .ofConfig _ config⟩
    · exact absurd ((peer_ofConfig config k).symm.trans entry) (by simp)
    · exact absurd (by cases o <;> exact own) (unclaimed o)
    · exact absurd ((peer_ofConfig config k).symm.trans entry) (by simp)
    · exact absurd ((peer_ofConfig config k).symm.trans entry) (by simp)
  · refine tabled_of_same (t ctx' old) rfl rfl rfl (fun d ctx'' found'' p queued => ?_) rfl rfl
    rcases Store.eq_or_find_of_find_add found'' with ⟨_, rfl⟩ | old
    · exact absurd queued (by simp [Context.ofConfig])
    · exact ⟨ctx'', old, queued⟩

theorem TabledIn.setSentinel (t : h.TabledIn gaps c) (n : Nat) (i : ContextId) (address : Address) :
    TabledIn ({ h with allocations := n }.modifyContext i
      (fun ctx => { ctx with sentinel := some address })) gaps c := by
  intro ctx' found'
  have kept : ∀ d, (({ h with allocations := n }.modifyContext i
      (fun ctx => { ctx with sentinel := some address })).contexts.find? d).map
        (fun ctx : Context => (ctx.config, ctx.registry, ctx.reclaimer)) =
      (h.contexts.find? d).map (fun ctx => (ctx.config, ctx.registry, ctx.reclaimer)) :=
    fun d => h.contexts.map_find_modify i d _ _ (fun _ _ => rfl)
  obtain ⟨ctx, found, same⟩ := exists_of_map_eq (kept c) found'
  refine tabled_of_same (t ctx found) rfl rfl rfl (fun d ctx'' found'' p queued => ?_)
    (congrArg (·.1) same) (congrArg (·.2.1) same)
  obtain ⟨ctx₁, found₁, same₁⟩ := exists_of_map_eq (kept d) found''
  have reclaimer : ctx''.reclaimer = ctx₁.reclaimer := congrArg (·.2.2) same₁
  exact ⟨ctx₁, found₁, reclaimer ▸ queued⟩

theorem TabledIn.listed (t : h.TabledIn gaps c) (G : h.Grounded) {i : ContextId} {ctx₀ : Context} {o : Object}
    (site : String) (found₀ : h.contexts.find? i = some ctx₀) (own : h.contextOf? o = some i)
    (free : ctx₀.registry.peer? ctx₀.registry.nextHandle = none) :
    (h.listed i ctx₀.registry.nextHandle o site).TabledIn gaps c := by
  intro ctx' found'
  by_cases this : i = c
  · subst this
    cases (context_listed found₀).symm.trans found'
    obtain ⟨R, t⟩ := t ctx₀ found₀
    refine ⟨R.entered G site own free, t.listing _ site free (fun x => address_listed ..) ?_⟩
    rw [address?, Store.find_fresh]
    rfl
  · have found := (context_listed_ne this).symm.trans found'
    obtain ⟨R, t⟩ := t ctx' found
    exact ⟨R.entered_elsewhere G found found₀ own this,
      t.carry rfl rfl rfl rfl (fun _ _ _ => address_listed ..)⟩

theorem TabledIn.rebacked (t : h.TabledIn gaps c) (S : h.Spaced) {i : ContextId} {o : Object} {p : PeerId}
    {q : Peer} {b : Backing} (S' : (h.rebacked i p q b).Spaced) (own : h.contextOf? o = some i)
    (pointer : h.peerOf? o = some p) (hq : h.peers.find? p = some q) :
    (h.rebacked i p q b).TabledIn gaps c := by
  intro ctx' found'
  have others : ∀ j, j ≠ p → (h.rebacked i p q b).address? (.block j) = h.address? (.block j) := by
    intro j other
    refine (address_modifyPeer_ne _ _ (fun same => other ?_)).trans (address_modifyRegistry h i _ _)
    exact Occupant.block.inj same
  by_cases this : i = c
  · subst this
    obtain ⟨ctx, found, rfl⟩ :=
      Option.map_eq_some_iff.mp ((Store.find_modify_self h.contexts i _).symm.trans found')
    obtain ⟨R, t⟩ := t ctx found
    refine ⟨R.rebacked (fun k => peer_rebacked ..) i q b, t.rebacked R hq (R.listed o p q own pointer hq)
      S S' others ?_⟩
    rw [address?, Heap.rebacked, modifyPeer, Store.find_modify_self,
      show (h.modifyRegistry i _).peers = h.peers from rfl, hq]
    rfl
  · have found := (Store.find_modify_ne _ _ this).symm.trans found'
    obtain ⟨R, t⟩ := t ctx' found
    refine ⟨R.rebacked (fun _ => rfl) i q b, t.carry rfl rfl rfl rfl (fun k j entry => others j ?_)⟩
    rintro rfl
    exact this (R.apart o i j k own pointer entry)

theorem Posting.tabledIn (posting : Posting T h h') (G : h.Grounded) (S : h.Spaced)
    (t : h.TabledIn gaps c) : h'.TabledIn gaps c := by
  have S' := posting.spaced S
  cases posting with
  | quiet Q => exact Q.tabledIn t
  | context config unclaimed => exact t.addContext config unclaimed
  | buffer foreign n nonzero free =>
    exact fun ctx' found' => tabled_of_same (t ctx' found') rfl rfl rfl
      (fun d ctx'' found'' p queued => ⟨ctx'', found'', queued⟩) rfl rfl
  | sentinel i ctx₀ address n found₀ none nonzero free => exact t.setSentinel n i address
  | listed i ctx₀ o site found₀ own bare free => exact t.listed G site found₀ own free
  | backed i o p q b own pointer hq offered allowed => exact t.rebacked S S' own pointer hq

/-! ### Refusals keep them -/

theorem tabledIn_entered (G : h.Grounded) (t : h.TabledIn gaps c) {k : Handle} {site : String}
    (other : d ≠ c) : (h.entered d k o site).TabledIn gaps c := by
  intro ctx found'
  have found := (Store.find_modify_ne _ _ other).symm.trans found'
  have contexts : ∀ e ctx'', (h.entered d k o site).contexts.find? e = some ctx'' →
      ∃ ctx₁, h.contexts.find? e = some ctx₁ ∧ ctx''.reclaimer = ctx₁.reclaimer := fun e ctx'' found'' =>
    exists_of_map_eq (h.contexts.map_find_modify d e
      (fun ctx => { ctx with registry := ctx.registry.draw.enter k h.peers.fresh site })
      (·.reclaimer) (fun _ _ => rfl)) found''
  obtain ⟨R, t⟩ := t ctx found
  refine ⟨R.carry (fun _ => rfl) (fun k' p q _ hq => ⟨q, Store.find_add_of_find _ hq, rfl⟩)
    (fun o' p q' own pointer hq' => ?_) (fun o' e p k' own pointer _ => ?_)
    (fun e ctx'' p k' found'' queued _ => .inr ?_), t.carry rfl rfl rfl rfl (fun k' p entry => ?_)⟩
  · have pointer₀ : h.peerOf? o' = some p := by cases o' <;> exact pointer
    obtain ⟨q, hq⟩ := G p (.pointer o' pointer₀)
    cases (Store.find_add_of_find _ hq).symm.trans hq'
    exact ⟨_, by cases o' <;> exact own, pointer₀, hq, rfl⟩
  · exact ⟨by cases o' <;> exact own, by cases o' <;> exact pointer⟩
  · obtain ⟨ctx₁, found₁, reclaimer⟩ := contexts e ctx'' found''
    exact ⟨ctx₁, found₁, reclaimer ▸ queued⟩
  · obtain ⟨q, hq, _⟩ := R.entry k' p entry
    rw [address?, address?, hq, show (h.entered d k o site).peers.find? p = some q from
      Store.find_add_of_find _ hq]

theorem Refusal.tabledIn {f : Fault} (R : h.Refusal f h') (elsewhere : h'.LastElsewhere c) (G : h.Grounded)
    (t : h.TabledIn gaps c) : h'.TabledIn gaps c := by
  induction R with
  | entered h c₀ ctx₀ o site found issued =>
    exact tabledIn_entered G t (elsewhere.ne found)
  | discarded h h' cell rest ih =>
    have Q := Quiet.discarded h cell
    exact ih elsewhere (Posting.grounded (T := fun _ => Nowhere) (.quiet Q) G) (Q.tabledIn t)

theorem Refusal.spaced {f : Fault} (R : h.Refusal f h') (S : h.Spaced) : h'.Spaced := by
  induction R with
  | entered h c ctx o site found issued =>
    refine S.stay (fun x a there => ?_)
    cases x with
    | block i =>
      obtain ⟨q, hq, lies⟩ := Option.bind_eq_some_iff.mp there
      rcases Store.eq_or_find_of_find_add hq with ⟨_, rfl⟩ | old
      · exact absurd lies (by simp [Backing.owned?])
      · exact Option.bind_eq_some_iff.mpr ⟨q, old, lies⟩
    | sentinel i =>
      exact (address_modifyRegistry h c (fun r => r.draw.enter ctx.registry.nextHandle h.peers.fresh site)
        (.sentinel i)).symm.trans there
    | buffer b => exact there
  | discarded h h' cell rest ih => exact ih (Posting.spaced (T := fun _ => Nowhere) (.quiet (.discarded h cell)) S)

/-! ### What releases and burials do to them -/

def ListsIn (h : Heap) (c : ContextId) (p : PeerId) : Prop :=
  ∃ ctx k, h.contexts.find? c = some ctx ∧ ctx.registry.peer? k = some p

theorem TabledIn.without (t : h.TabledIn gaps c) {r : Ref} (unheld : r ∉ h.refs) :
    (h.without r).TabledIn gaps c := by
  intro ctx' found'
  obtain ⟨_, _, peers, contexts, _⟩ := find_without h r
  obtain ⟨own, pointer⟩ := objects_without h r
  have found := contexts c ctx' found'
  -- a peer that is listed is held, so it is not what goes
  have stays : ∀ k p, ctx'.registry.peer? k = some p →
      (h.without r).peers.find? p = h.peers.find? p := by
    intro k p entry
    have held := listed_held found entry
    cases r with
    | peer i =>
      refine (Store.find_erase _ _ _).trans (if_neg ?_)
      rintro rfl
      exact unheld held
    | _ => rfl
  obtain ⟨R, t⟩ := t ctx' found
  refine ⟨R.carry (fun _ => rfl) (fun k p q entry hq => ⟨q, (stays k p entry).trans hq, rfl⟩)
    (fun o p q' own' pointer' hq' => ⟨q', own o c own', pointer o p pointer', peers p q' hq', rfl⟩)
    (fun o d p k own' pointer' _ => ⟨own o d own', pointer o p pointer'⟩)
    (fun d ctx'' p k found'' queued _ => .inr ⟨ctx'', contexts d ctx'' found'', queued⟩),
    t.carry rfl rfl rfl rfl (fun k p entry => ?_)⟩
  rw [address?, stays k p entry, address?]

/-- A reclaimer takes note of something. Whatever newly waits there is its own or is not listed. -/
theorem TabledIn.noted (t : h.TabledIn gaps c) {d : ContextId} {f : Reclaimer → Reclaimer}
    (queue : ∀ ctx, h.contexts.find? d = some ctx → ∀ p ∈ (f ctx.reclaimer).queue,
      p ∈ ctx.reclaimer.queue ∨ d = c ∨ ¬ h.ListsIn c p) : (h.modifyReclaimer d f).TabledIn gaps c := by
  intro ctx' found'
  obtain ⟨ctx, found, same⟩ := exists_of_map_eq (h.contexts.map_find_modify d c
    (fun ctx => { ctx with reclaimer := f ctx.reclaimer }) (fun ctx => (ctx.config, ctx.registry))
    (fun _ _ => rfl)) found'
  have registry : ctx'.registry = ctx.registry := congrArg Prod.snd same
  obtain ⟨R, t⟩ := t ctx found
  refine ⟨R.carry (fun k => by rw [registry]) (fun k p q _ hq => ⟨q, hq, rfl⟩)
    (fun o p q' own pointer hq' => ⟨q', ?_, ?_, hq', rfl⟩) (fun o e p k own pointer _ => ⟨?_, ?_⟩)
    (fun e ctx'' p k found'' queued entry => ?_),
    t.carry (congrArg Prod.fst same) (by rw [registry]) (by rw [registry]) (by rw [registry])
      (fun _ _ _ => rfl)⟩
  · cases o <;> exact own
  · cases o <;> exact pointer
  · cases o <;> exact own
  · cases o <;> exact pointer
  · by_cases this : d = e
    · subst this
      obtain ⟨ctx₁, found₁, rfl⟩ :=
        Option.map_eq_some_iff.mp ((Store.find_modify_self ..).symm.trans found'')
      rcases queue ctx₁ found₁ p queued with old | here | unlisted
      · exact .inr ⟨ctx₁, found₁, old⟩
      · exact .inl here
      · exact absurd ⟨ctx, k, found, entry⟩ unlisted
    · exact .inr ⟨ctx'', (Store.find_modify_ne _ _ this).symm.trans found'', queued⟩

theorem TabledIn.modifyPeer (t : h.TabledIn gaps c) (f : Peer → Peer) (handle : ∀ q, (f q).handle = q.handle)
    (stays : (∀ q, (f q).backing = q.backing) ∨ ¬ h.ListsIn c p) :
    (h.modifyPeer p f).TabledIn gaps c := by
  intro ctx found
  have kept : ∀ i, ((h.modifyPeer p f).peers.find? i).map (·.handle) = (h.peers.find? i).map (·.handle) :=
    fun i => h.peers.map_find_modify p i f (·.handle) (fun q _ => handle q)
  obtain ⟨R, t⟩ := t ctx found
  refine ⟨R.carry (fun _ => rfl) (fun k i q _ hq => ?_) (fun o i q' own pointer hq' => ?_)
    (fun o d i k own pointer _ => ⟨by cases o <;> exact own, by cases o <;> exact pointer⟩)
    (fun d ctx'' i k found'' queued _ => .inr ⟨ctx'', found'', queued⟩),
    t.carry rfl rfl rfl rfl (fun k i entry => ?_)⟩
  · obtain ⟨q', hq', same⟩ := exists_of_map_eq (kept i).symm hq
    exact ⟨q', hq', same.symm⟩
  · obtain ⟨q, hq, same⟩ := exists_of_map_eq (kept i) hq'
    exact ⟨q, by cases o <;> exact own, by cases o <;> exact pointer, hq, same.symm⟩
  · rcases stays with backing | unlisted
    · exact address_modifyPeer h p backing _
    · refine address_modifyPeer_ne h f ?_
      rintro ⟨⟩
      exact unlisted ⟨ctx, k, found, entry⟩

theorem TabledIn.modifyRegistry (t : h.TabledIn gaps c) (d : ContextId) (r : Registry → Registry)
    (here : d = c → ∀ ctx, h.contexts.find? c = some ctx →
      (∀ k i, (r ctx.registry).peer? k = some i → ctx.registry.peer? k = some i) ∧
      (∀ o k i, h.peerOf? o = some i → ctx.registry.peer? k = some i →
        (r ctx.registry).peer? k = some i) ∧
      h.Tables gaps' { ctx with registry := r ctx.registry })
    (elsewhere : d ≠ c → (∀ a, gaps.address a → gaps'.address a) ∧
      ∀ k, gaps.handle k → gaps'.handle k) : (h.modifyRegistry d r).TabledIn gaps' c := by
  have queue : ∀ e ctx'', (h.modifyRegistry d r).contexts.find? e = some ctx'' →
      ∃ ctx₁, h.contexts.find? e = some ctx₁ ∧ ctx''.reclaimer = ctx₁.reclaimer := fun e ctx'' found'' =>
    exists_of_map_eq (h.contexts.map_find_modify d e
      (fun ctx => { ctx with registry := r ctx.registry }) (·.reclaimer) (fun _ _ => rfl)) found''
  intro ctx' found'
  by_cases this : d = c
  · subst this
    obtain ⟨ctx, found, rfl⟩ :=
      Option.map_eq_some_iff.mp ((Store.find_modify_self h.contexts d _).symm.trans found')
    obtain ⟨fewer, kept, t'⟩ := here rfl ctx found
    obtain ⟨R, _⟩ := t ctx found
    refine ⟨⟨fun k i entry => R.entry k i (fewer k i entry), fun o i q own pointer hq => ?_,
      fun o e i k own pointer entry => ?_, fun e ctx'' i k found'' queued entry => ?_⟩, ?_⟩
    · have pointer₀ : h.peerOf? o = some i := by cases o <;> exact pointer
      exact kept o _ i pointer₀ (R.listed o i q (by cases o <;> exact own) pointer₀ hq)
    · exact R.apart o e i k (by cases o <;> exact own) (by cases o <;> exact pointer) (fewer k i entry)
    · obtain ⟨ctx₁, found₁, reclaimer⟩ := queue e ctx'' found''
      exact R.waiting e ctx₁ i k found₁ (reclaimer ▸ queued) (fewer k i entry)
    · exact ⟨t'.indexes, t'.index, t'.traces, t'.sites⟩
  · obtain ⟨address, handle⟩ := elsewhere this
    have found := (Store.find_modify_ne _ _ this).symm.trans found'
    have same : (h.modifyRegistry d r).Roll c ctx' ∧ (h.modifyRegistry d r).Tables gaps ctx' := by
      refine tabled_of_same (t ctx' found) rfl rfl rfl (fun e ctx'' found'' p queued => ?_) rfl rfl
      obtain ⟨ctx₁, found₁, reclaimer⟩ := queue e ctx'' found''
      exact ⟨ctx₁, found₁, reclaimer ▸ queued⟩
    exact same.imp_right (·.widen address handle)

/-- The entry of a peer that no object has goes. Where it lies is a gap now, and so is its handle. -/
theorem Tables.delist (t : h.Tables gaps ctx) {k : Handle} (listed : ctx.registry.peer? k = some p)
    (address : ∀ a, gaps.address a ∨ h.address? (.block p) = some a → gaps'.address a)
    (handle : ∀ k', gaps.handle k' ∨ k' = k → gaps'.handle k') :
    h.Tables gaps' { ctx with registry := ctx.registry.delist k } where
  indexes := t.indexes
  index on a sound k' := by
    refine (t.index on a (fun gap => sound (address a (.inl gap))) k').trans (exists_congr (fun i => ?_))
    simp only [Registry.peer_delist]
    split
    · rename_i same
      subst same
      refine iff_of_false (fun ⟨entry, there⟩ => ?_) (fun both => absurd both.1 (by simp))
      cases listed.symm.trans entry
      exact sound (address a (.inr there))
    · rfl
  traces := t.traces
  sites on k' sound := by
    have other : k ≠ k' := fun same => sound (handle k' (.inr same.symm))
    rw [Registry.peer_delist, if_neg other]
    exact t.sites on k' (fun gap => sound (handle k' (.inl gap)))

theorem Tables.forgetSite (t : h.Tables gaps ctx) {k : Handle} (unlisted : ctx.registry.peer? k = none)
    (address : ∀ a, gaps.address a → gaps'.address a)
    (handle : ∀ k', gaps.handle k' → gaps'.handle k' ∨ k' = k) :
    h.Tables gaps' { ctx with registry := ctx.registry.forgetSite k } where
  indexes := t.indexes
  index on a sound k' := t.index on a (fun gap => sound (address a gap)) k'
  traces := (Option.isSome_map ..).trans t.traces
  sites on k' sound := by
    rw [Registry.site_forgetSite]
    split
    · rename_i same
      exact congrArg Option.isSome (same ▸ unlisted).symm
    · rename_i other
      exact t.sites on k' (fun gap => (handle k' gap).elim sound (fun same => other same.symm))

/-- A block at which nothing that is listed lies goes off the index, and with it a gap. -/
theorem Tables.unindex (t : h.Tables gaps ctx) {b : Backing}
    (left : ∀ a k i, b.owned?.map Prod.fst = some a → ctx.registry.peer? k = some i →
      h.address? (.block i) ≠ some a)
    (address : ∀ a, gaps.address a → gaps'.address a ∨ b.owned?.map Prod.fst = some a)
    (handle : ∀ k', gaps.handle k' → gaps'.handle k') :
    h.Tables gaps' { ctx with registry := ctx.registry.unindex b } where
  indexes := by cases b <;> exact (by simp [Registry.unindex, t.indexes])
  index on a sound k := by
    have entries : (ctx.registry.unindex b).peers = ctx.registry.peers := by cases b <;> rfl
    rw [Registry.handleAt_unindex]
    simp only [Registry.peer?, entries]
    split
    · rename_i here
      refine iff_of_false (by simp) ?_
      rintro ⟨i, entry, there⟩
      exact left a k i here entry there
    · rename_i stays
      exact t.index on a (fun gap => (address a gap).elim sound stays) k
  traces := by cases b <;> exact t.traces
  sites on k sound := by
    have := t.sites on k (fun gap => sound (handle k gap))
    cases b <;> exact this

theorem Tables.noteFreed (t : h.Tables gaps ctx) (b : Backing) :
    h.Tables gaps { ctx with registry := ctx.registry.noteFreed b } :=
  ⟨t.indexes, t.index, t.traces, t.sites⟩

end Heap
end VectorHeap
