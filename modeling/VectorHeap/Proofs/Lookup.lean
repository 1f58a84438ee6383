import VectorHeap.Proofs.Release

/-! Lookups. As long as a context registers no handle twice, a handle finds the live object of the
context that shows it, and no other handle finds anything. What happens in other contexts does not
matter, nor how far the reclaimers are. -/
namespace VectorHeap

namespace Heap

variable {h h' : Heap} {c : ContextId}

/-- A context, if it is there, names its objects. -/
def NamesIn (h : Heap) (c : ContextId) : Prop :=
  ∀ ctx, h.contexts.find? c = some ctx → h.Names c ctx

/-! ### Changes -/

theorem Revises.namesIn {v : Option VectorId} {p : Option PeerId} (R : h.Revises v p h')
    (N : h.NamesIn c) : h'.NamesIn c := by
  intro ctx' found'
  obtain ⟨ctx, found, same⟩ := exists_of_map_eq (R.contexts c) found'
  have table : ctx'.registry.peers = ctx.registry.peers := congrArg Accounts.peers same
  exact (N ctx found).carry (R.carries c ctx) (fun k => congrArg (·.find? k) table)

theorem Rebinds.namesIn (R : h.Rebinds h') (N : h.NamesIn c) : h'.NamesIn c := by
  intro ctx found
  rw [R.rest] at found
  exact (N ctx found).carry (R.carries c ctx) (fun _ => rfl)

theorem PlainlyExtends.namesIn (I : h.Intact) (E : h.Extends h') (P : h.PlainlyExtends h')
    (N : h.NamesIn c) : h'.NamesIn c := by
  intro ctx' found'
  rcases P.contexts c ctx' found' with ⟨ctx, found, registry, _⟩ | ⟨late, config, rfl⟩
  · exact (N ctx found).carry (P.carries I E c ctx) (fun k => by rw [registry])
  · exact P.names I E late config

theorem Growth.namesIn (I : h.Intact) (G : h.Growth h') (N : h.NamesIn c) : h'.NamesIn c := by
  have E := G.extends I
  rcases G.listed_or_plain with ⟨c₀, ctx₀, o, site, found, own, bare, free, rfl⟩ | P
  · intro ctx' found'
    by_cases same : c₀ = c
    · subst same
      cases (context_listed found).symm.trans found'
      exact listed_names I (N ctx₀ found) own bare free
    · have there := (context_listed_ne same).symm.trans found'
      exact (N ctx' there).carry (listed_carries I (N ctx' there) found own same E) (fun _ => rfl)
  · exact P.namesIn I E N

theorem Change.namesIn {T : VectorId → Prop} {B : BufferId → Prop} (I : h.Intact)
    (C : Change T B h h') (N : h.NamesIn c) : h'.NamesIn c := by
  cases C with
  | growth G => exact G.namesIn I N
  | update v cell s own U metered buffers => exact U.revises.namesIn N
  | environs R buffers => exact R.namesIn N
  | text s cell p found pointer R metered formed buffers => exact R.namesIn N

theorem Moves.namesIn {T : VectorId → Prop} {B : BufferId → Prop} (I : h.Intact)
    (M : Moves T B h h') (N : h.NamesIn c) : h'.NamesIn c := by
  induction M with
  | refl => exact N
  | tail first last ih => exact last.namesIn (first.intact I) ih

theorem Advances.namesIn {T : VectorId → Prop} {B : BufferId → Prop} (I : h.Intact)
    (A : h.Advances T B h') (N : h.NamesIn c) : h'.NamesIn c := by
  obtain ⟨h₁, M, rfl | R⟩ := A
  · exact M.namesIn I N
  · exact R.namesIn (M.namesIn I N)

/-! ### Handles that are taken -/

/-- The peer that came last is not one that the context lists. -/
def LastElsewhere (h : Heap) (c : ContextId) : Prop :=
  ∀ ctx k p, h.contexts.find? c = some ctx → ctx.registry.peer? k = some p →
    p.index + 1 ≠ h.peers.next

/-- A fault other than that a context registered a handle twice, which leaves the entry of the
handle to the peer that came last. -/
def DistinctIn (c : ContextId) (h : Heap) (f : Fault) : Prop :=
  (∃ k, f = .panic (.registeredTwice k)) → h.LastElsewhere c

theorem entered_carries (I : h.Intact) {c₀ : ContextId} {ctx₀ ctx : Context} {o : Object}
    {k : Handle} {site : String} (N : h.Names c ctx) (found : h.contexts.find? c₀ = some ctx₀) :
    h.Carries (h.entered c₀ k o site) c ctx := by
  refine (Extends.entered h c₀ k o site).carries I c ctx (fun o' p _ pointer => ?_) ?_
  · cases o' <;> exact pointer
  · intro k₁ p c' ctx' k' entry there entry'
    by_cases same : c₀ = c'
    · subst same
      rw [Heap.entered, modifyRegistry, modifyContext, Store.find_modify_self] at there
      cases (congrArg (Option.map _) found).symm.trans there
      obtain ⟨q, hq, _⟩ := N.entry k₁ p entry
      rcases peer_entered.mp entry' with ⟨_, new⟩ | ⟨_, old⟩
      · exact absurd new (ne_fresh_of_find hq)
      · exact ⟨ctx₀, found, old⟩
    · exact ⟨ctx', (Store.find_modify_ne _ _ same).symm.trans there, entry'⟩

theorem LastElsewhere.ne {c₀ : ContextId} {ctx₀ : Context} {o : Object} {site : String}
    (elsewhere : (h.entered c₀ ctx₀.registry.nextHandle o site).LastElsewhere c)
    (found : h.contexts.find? c₀ = some ctx₀) : c₀ ≠ c := by
  rintro rfl
  have there : (h.entered c₀ ctx₀.registry.nextHandle o site).contexts.find? c₀ = some
      { ctx₀ with
        registry := ctx₀.registry.draw.enter ctx₀.registry.nextHandle h.peers.fresh site } :=
    (Store.find_modify_self _ c₀ _).trans (congrArg (Option.map _) found)
  exact elsewhere _ _ h.peers.fresh there (peer_entered.mpr (.inl ⟨rfl, rfl⟩)) rfl

theorem Refusal.same_context {f : Fault} (R : h.Refusal f h') (elsewhere : h'.LastElsewhere c) :
    h'.contexts.find? c = h.contexts.find? c := by
  induction R with
  | entered h c₀ ctx₀ o site found issued => exact Store.find_modify_ne _ _ (elsewhere.ne found)
  | discarded h h' cell rest ih => exact ih elsewhere

theorem Refusal.namesIn {f : Fault} (I : h.Intact) (R : h.Refusal f h') (elsewhere : h'.LastElsewhere c)
    (N : h.NamesIn c) : h'.NamesIn c := by
  induction R with
  | entered h c₀ ctx₀ o site found issued =>
    intro ctx' found'
    have there := (Store.find_modify_ne _ _ (elsewhere.ne found)).symm.trans found'
    exact (N ctx' there).carry (entered_carries I (N ctx' there) found) (fun _ => rfl)
  | discarded h h' cell rest ih =>
    obtain ⟨E, I₁⟩ := I.discarded cell
    have P : h.PlainlyExtends (h.discarded cell) := by
      refine ⟨fun o p pointer => ?_, fun i ctx' found' => .inl ⟨ctx', found', rfl, rfl⟩⟩
      cases o with
      | vector v =>
        rw [peerOf?, find_discarded] at pointer
        exact pointer
      | string s => exact pointer
    exact ih I₁ elsewhere (P.namesIn I E N)

theorem Refusal.follows {f : Fault} (R : h.Refusal f h') : h.Follows h' := by
  induction R with
  | entered h c₀ ctx₀ o site found issued =>
    refine ⟨Nat.le_refl _, Nat.le_succ _, fun o' issued => ?_, fun c _ there => ?_,
      fun o' _ alive => ?_, fun p q' old found' => ?_⟩
    · cases o' <;> exact issued
    · exact (isSome_eq_of_map_eq
        (Store.map_find_modify _ c₀ c _ (fun _ => ()) (fun _ _ => rfl))).symm.trans there
    · cases o' <;> exact alive
    · rcases Store.eq_or_find_of_find_add found' with ⟨rfl, _⟩ | there
      · exact absurd rfl (not_issued_fresh old)
      · exact ⟨q', there, rfl, id⟩
  | discarded h h' cell rest ih =>
    have F : h.Follows (h.discarded cell) := by
      refine { Follows.refl h with issued := fun o issued => ?_, object := fun o _ alive => ?_ }
      · cases o with
        | vector v => exact Nat.lt_succ_of_lt issued
        | string s => exact issued
      · cases o with
        | vector v =>
          obtain ⟨old, found⟩ := (Store.contains_iff _ v).mp alive
          exact (Store.contains_iff _ v).mpr ⟨old, (find_discarded h cell v).symm.trans found⟩
        | string s => exact alive
    exact F.trans ih

/-! ### Burials and releases -/

theorem Sheds.namesIn (I : h.Intact) (S : h.Sheds h') (U : h.Unlists h') (N : h.NamesIn c) :
    h'.NamesIn c := by
  have I' := S.intact I
  intro ctx' found'
  obtain ⟨ctx, found, _, _, _, _, _, entries, _⟩ := S.contexts c ctx' found'
  have N := N ctx found
  refine ⟨fun k p entry => ?_, fun o p q' own pointer hq' => ?_⟩
  · obtain ⟨q, hq, owner⟩ := N.entry k p (entries k p entry)
    obtain ⟨q', hq'⟩ := has_peer_iff.mp (I'.has_of_mem_refs (listed_held found' entry))
    obtain ⟨q₀, hq₀, same⟩ := S.peers p q' hq'
    cases hq.symm.trans hq₀
    have owner' : q'.owner = q.owner := by exact same.elim (congrArg Peer.owner) (fun fades => fades.1.owner)
    refine ⟨q', hq', fun c' own => ?_⟩
    rw [owner'] at own ⊢
    have alive := isAlive_iff_contextOf.mpr ⟨c', own⟩
    rw [S.contextOf alive] at own
    rw [S.peerOf alive]
    exact owner c' own
  · have alive := isAlive_iff_contextOf.mpr ⟨c, own⟩
    obtain ⟨q₀, hq₀, _, live⟩ := I'.peer_of_object pointer
    cases hq'.symm.trans hq₀
    rw [S.contextOf alive] at own
    rw [S.peerOf alive] at pointer
    obtain ⟨q, hq, owner, _⟩ := I.peer_of_object pointer
    cases S.peer_of_object alive owner hq hq'
    -- The entry of a live object cannot have gone: its peer was not released.
    rcases U.kept c ctx ctx' q'.handle p found found' (N.listed o p q' own pointer hq) with
      entry | ⟨q₁, hq₁, released⟩
    · exact entry
    · cases hq'.symm.trans hq₁
      exact absurd (live.symm.trans released) (by decide)

theorem release_unlists (h : Heap) (c : ContextId) (p : PeerId) : h.Unlists (h.release c p).1 := by
  have S : h.SameRegistries h := fun i ctx' there => ⟨ctx', there, rfl⟩
  have finished : h.Unlists (h.finishPeer c p) := S.finishPeer
  refine ⟨fun i ctx ctx' k p' found found' entry => ?_⟩
  -- Counting the release afterwards touches no registry.
  let counted : Context → Context := fun ctx =>
    { ctx with reclaimer := ctx.reclaimer.finish (h.release c p).2 }
  obtain ⟨ctx'', found'', same⟩ := exists_of_map_eq ((h.release c p).1.contexts.map_find_modify c i
    counted (·.registry) (fun _ _ => rfl)).symm found'
  rw [same]
  exact finished.kept i ctx ctx'' k p' found found'' entry

/-! ### Runs -/

/-- Runs in which a context registers no handle twice. Between the steps anybody may release a peer
whose owner is dead, or hand it in. -/
inductive RunIn (c : ContextId) (h₀ : Heap) : List Heap → Heap → Prop
  | start : RunIn c h₀ [] h₀
  | step {past : List Heap} {h h' : Heap} (run : RunIn c h₀ past h)
      (last : Step (DistinctIn c h') h h') : RunIn c h₀ (h :: past) h'
  | release {past : List Heap} {h : Heap} (run : RunIn c h₀ past h) (d : ContextId) (p : PeerId)
      (ownerless : h.Ownerless p) : RunIn c h₀ (h :: past) (h.release d p).1
  | reclaim {past : List Heap} {h : Heap} (run : RunIn c h₀ past h) (d : ContextId) (p : PeerId)
      (there : h.has (.peer p) = true) (ownerless : h.Ownerless p) :
      RunIn c h₀ (h :: past) (h.reclaim d p)

theorem RunIn.of_run {h₀ : Heap} {past : List Heap} (run : Run Distinct h₀ past h) :
    RunIn c h₀ past h := by
  induction run with
  | start => exact .start
  | step run last ih =>
    refine ih.step (last.mono (fun f distinct => ?_))
    rintro ⟨k, rfl⟩
    exact absurd rfl (distinct k)

theorem step_namesIn (I : h.Intact) (s : Step (DistinctIn c h') h h') (N : h.NamesIn c) :
    h'.NamesIn c := by
  cases s with
  | answer call ok run => exact ((call.ends I ok).ok run).namesIn I N
  | stop call f ok run expected =>
    rcases (call.ends I ok).error run with ⟨_, A⟩ | ⟨twice, h₁, M, R⟩
    · exact A.namesIn I N
    · exact R.namesIn (M.intact I) (expected twice) (M.namesIn I N)
  | bury roots r dead =>
    exact (bury_sheds I (mem_dead_iff.mp dead).2.2.1).namesIn I (bury_unlists I r) N
  | work d => exact (work_sheds I d).namesIn I (work_unlists h d) N
  | shutdown d => exact (shutdown_sheds I d).namesIn I (shutdown_unlists h d) N

theorem step_follows {allowed : Fault → Prop} (I : h.Intact) (s : Step allowed h h') :
    h.Follows h' := by
  rcases step_cases I s with ⟨T, B, A⟩ | ⟨_, f, T, B, h₁, M, R⟩ | S
  · exact (A.history I).1
  · exact (M.history I).1.trans R.follows
  · exact S.follows

section
variable {h₀ : Heap} {past : List Heap}

theorem RunIn.intact (I : h₀.Intact) (run : RunIn c h₀ past h) : h.Intact := by
  induction run with
  | start => exact I
  | step run last ih => exact step_intact ih last
  | release run d p ownerless ih => exact (release_sheds ih d ownerless).intact ih
  | reclaim run d p there ownerless ih => exact (reclaim_sheds ih d there ownerless).intact ih

theorem RunIn.namesIn (I : h₀.Intact) (N : h₀.NamesIn c) (run : RunIn c h₀ past h) :
    h.NamesIn c := by
  induction run with
  | start => exact N
  | step run last ih => exact step_namesIn (run.intact I) last ih
  | release run d p ownerless ih =>
    exact (release_sheds (run.intact I) d ownerless).namesIn (run.intact I)
      (release_unlists _ d p) ih
  | @reclaim past h run d p there ownerless ih =>
    have S : h.SameRegistries h := fun i ctx' there => ⟨ctx', there, rfl⟩
    exact (reclaim_sheds (run.intact I) d there ownerless).namesIn (run.intact I) S.reclaim ih

/-- What a run went through is the end of a run too, and nothing of it comes back. -/
theorem RunIn.earlier (I : h₀.Intact) (run : RunIn c h₀ past h) {g : Heap} (mem : g ∈ past) :
    (∃ past', RunIn c h₀ past' g) ∧ g.Follows h := by
  have one : ∀ {past : List Heap} {h h' : Heap}, RunIn c h₀ past h → h.Follows h' →
      (g ∈ past → (∃ past', RunIn c h₀ past' g) ∧ g.Follows h) → g ∈ h :: past →
      (∃ past', RunIn c h₀ past' g) ∧ g.Follows h' := by
    intro past h h' run follows before mem
    rcases List.mem_cons.mp mem with rfl | mem
    · exact ⟨⟨past, run⟩, follows⟩
    · obtain ⟨first, later⟩ := before mem
      exact ⟨first, later.trans follows⟩
  induction run with
  | start => exact absurd mem List.not_mem_nil
  | step run last ih => exact one run (step_follows (run.intact I) last) ih mem
  | release run d p ownerless ih =>
    exact one run (release_sheds (run.intact I) d ownerless).follows ih mem
  | reclaim run d p there ownerless ih =>
    exact one run (reclaim_sheds (run.intact I) d there ownerless).follows ih mem

theorem namesIn_of_supply (supply : Nat → Nat → Option Address) (c : ContextId) :
    Heap.NamesIn { supply } c :=
  fun _ found => absurd found (by simp)

end

/-! ### What lookups find -/

def entriesIn (h : Heap) (c : ContextId) : List (Handle × PeerId) :=
  ((h.contexts.find? c).map (·.registry.peers.entries)).getD []

/-- Along some heaps a context entered each handle for one peer only. -/
def EntersOnce (c : ContextId) (trace : List Heap) : Prop :=
  ∀ g ∈ trace, ∀ e ∈ g.entriesIn c, ∀ g' ∈ trace, ∀ e' ∈ g'.entriesIn c, e.1 = e'.1 → e.2 = e'.2

instance (c : ContextId) (trace : List Heap) : Decidable (EntersOnce c trace) :=
  inferInstanceAs (Decidable (∀ g ∈ trace, ∀ e ∈ g.entriesIn c, ∀ g' ∈ trace,
    ∀ e' ∈ g'.entriesIn c, e.1 = e'.1 → e.2 = e'.2))

def Shows (h : Heap) (roots : List Ref) (c : ContextId) (k : Handle) (o : Object) : Prop :=
  h.Live roots o ∧ h.contextOf? o = some c ∧ k.isSome = true ∧ h.handleOf o = k

section
variable {ctx : Context} {roots : List Ref}

theorem mem_entriesIn (found : h.contexts.find? c = some ctx) {k : Handle} {p : PeerId}
    (entry : ctx.registry.peer? k = some p) : (k, p) ∈ h.entriesIn c := by
  rw [entriesIn, found]
  exact (Table.mem_entries_iff ctx.registry.peers k p).mpr entry

theorem resolve_eq_some_iff_shows (I : h.Intact) (N : h.NamesIn c)
    (found : h.contexts.find? c = some ctx) (rooted : ∀ r ∈ roots, h.has r = true)
    (buried : ∀ o, .ofObject o ∉ h.dead roots) (k : Handle) (o : Object) :
    h.resolve? c k = some o ↔ h.Shows roots c k o := by
  rw [(N ctx found).resolve_eq_some_iff I found, Shows, ← isAlive_iff_live I rooted (buried o)]
  constructor
  · rintro ⟨own, shown⟩
    exact ⟨isAlive_iff_contextOf.mpr ⟨c, own⟩, own, shown⟩
  · rintro ⟨_, shown⟩
    exact shown

theorem lookup_eq_ok_iff (found : h.contexts.find? c = some ctx) (k : Handle) (o : Object) :
    Op.lookup c k h = .ok o h ↔ h.resolve? c k = some o := by
  rw [Op.lookup_run found]
  cases h.resolve? c k <;> simp

theorem lookup_eq_error (found : h.contexts.find? c = some ctx) {k : Handle}
    (none : h.resolve? c k = none) : Op.lookup c k h =
      .error (.error (.invalidHandle k ctx.registry.counter (ctx.registry.site? k))) h := by
  rw [Op.lookup_run found, none]
  rfl

/-- The handle of an object that died resolves to nothing from then on. -/
theorem resolve_of_dead {supply : Nat → Nat → Option Address} {past : List Heap}
    (run : RunIn c { supply } past h) (found : h.contexts.find? c = some ctx)
    (once : EntersOnce c (h :: past)) {g : Heap} (mem : g ∈ past) {o : Object}
    (own : g.contextOf? o = some c) (named : (g.handleOf o).isSome = true)
    (dead : h.isAlive o = false) : h.resolve? c (g.handleOf o) = none := by
  have I₀ := intact_of_supply supply
  have N₀ := namesIn_of_supply supply c
  have I := run.intact I₀
  obtain ⟨⟨past', earlier⟩, F⟩ := run.earlier I₀ mem
  have I' := earlier.intact I₀
  obtain ⟨ctx', found'⟩ := has_context_iff.mp
    (F.context c (I'.context_issued own) (has_context_iff.mpr ⟨ctx, found⟩))
  -- The handle was entered for the peer of this object, so it stands for no other peer.
  obtain ⟨p, q, pointer, hq, handle⟩ := peerOf_of_handleOf named
  have entry := (earlier.namesIn I₀ N₀ ctx' found').listed o p q own pointer hq
  refine Option.eq_none_iff_forall_not_mem.mpr (fun o' resolved => ?_)
  have N := run.namesIn I₀ N₀ ctx found
  obtain ⟨own', named', shown⟩ := (N.resolve_eq_some_iff I found _ o').mp resolved
  obtain ⟨p', q', pointer', hq', handle'⟩ := peerOf_of_handleOf (shown.symm ▸ named')
  have entry' := N.listed o' p' q' own' pointer' hq'
  have same : p' = p := once h List.mem_cons_self _ (mem_entriesIn found entry') g
    (List.mem_cons_of_mem h mem) _ (mem_entriesIn found' entry)
    (handle'.symm.trans (shown.trans handle))
  subst same
  obtain ⟨q₀, hq₀, owner, _⟩ := I'.peer_of_object pointer
  cases hq.symm.trans hq₀
  obtain ⟨q₁, hq₁, owner', _⟩ := I.peer_of_object pointer'
  cases hq'.symm.trans hq₁
  obtain ⟨q₂, hq₂, kept, _⟩ := F.peer p' q' (Store.lt_next_of_find _ p' q hq) hq'
  cases hq.symm.trans hq₂
  have alive : h.isAlive q'.owner = true := isAlive_iff_contextOf.mpr ⟨c, owner' ▸ own'⟩
  rw [kept, owner] at alive
  exact absurd (alive.symm.trans dead) (by decide)

/-- After any run in which a context registered no handle twice, and in which the peers of its live
objects were not released by hand, however much of it waits for release: a lookup finds an object
exactly if it is alive, of this context and shows the handle; for all other handles it reports the
handle and the counter. So no two live objects show one handle; and where each handle was entered
once, that of an object that died since finds nothing. -/
theorem lookup_after_run {supply : Nat → Nat → Option Address} {past : List Heap}
    (run : RunIn c { supply } past h) (found : h.contexts.find? c = some ctx) (roots : List Ref)
    (rooted : ∀ r ∈ roots, h.has r = true) (buried : ∀ o, .ofObject o ∉ h.dead roots) :
    (∀ k o, Op.lookup c k h = .ok o h ↔ h.Shows roots c k o) ∧
    (∀ k, (∀ o, ¬ h.Shows roots c k o) → Op.lookup c k h =
      .error (.error (.invalidHandle k ctx.registry.counter (ctx.registry.site? k))) h) ∧
    (∀ k o o', h.Shows roots c k o → h.Shows roots c k o' → o = o') ∧
    (EntersOnce c (h :: past) → ∀ g ∈ past, ∀ o, g.contextOf? o = some c →
      (g.handleOf o).isSome = true → ¬ h.Live roots o → Op.lookup c (g.handleOf o) h =
        .error (.error (.invalidHandle (g.handleOf o) ctx.registry.counter
          (ctx.registry.site? (g.handleOf o)))) h) := by
  have I := run.intact (intact_of_supply supply)
  have N := run.namesIn (intact_of_supply supply) (namesIn_of_supply supply c)
  have shows := resolve_eq_some_iff_shows I N found rooted buried
  refine ⟨?_, ?_, ?_, ?_⟩
  · intro k o
    rw [lookup_eq_ok_iff found, shows]
  · intro k hidden
    refine lookup_eq_error found (Option.eq_none_iff_forall_not_mem.mpr ?_)
    intro o resolved
    exact hidden o ((shows k o).mp resolved)
  · intro k o o' shown shown'
    exact Option.some.inj (((shows k o).mpr shown).symm.trans ((shows k o').mpr shown'))
  · intro once g mem o own named dead
    rw [← isAlive_iff_live I rooted (buried o), Bool.not_eq_true] at dead
    exact lookup_eq_error found (resolve_of_dead run found once mem own named dead)

/-- Of two vectors one was dropped and waits for its release. -/
theorem lookup_after_drop :
    ∃ past h, RunIn ⟨0⟩ {} past h ∧ h.isIdle ⟨0⟩ = false ∧
      Op.lookup ⟨0⟩ ⟨0x0DEF000000000001⟩ h = .ok (.vector ⟨0⟩) h ∧
      Op.lookup ⟨0⟩ ⟨0x0DEF000000000003⟩ h =
        .error (.error (.invalidHandle ⟨0x0DEF000000000003⟩ 0x0DEF000000000005 none)) h ∧
      Op.lookup ⟨0⟩ ⟨0⟩ h =
        .error (.error (.invalidHandle ⟨0⟩ 0x0DEF000000000005 none)) h := by
  have run₁ : Run Distinct {} [{}] _ :=
    Run.start.step (.answer (.newContext .default) ⟨by decide, by simp⟩ rfl)
  have run₂ := run₁.step (.answer (.newVector ⟨0⟩ .int [.int 1]) ⟨by decide, by simp⟩ rfl)
  have run₃ := run₂.step (.answer (.ensureHandle (.vector ⟨0⟩)) ⟨by decide, by simp⟩ rfl)
  have run₄ := run₃.step (.answer (.newVector ⟨0⟩ .raw [.raw 2]) ⟨by decide, by simp⟩ rfl)
  have run₅ := run₄.step (.answer (.ensureHandle (.vector ⟨1⟩)) ⟨by decide, by simp⟩ rfl)
  have run₆ := run₅.step (.bury [.context ⟨0⟩, .vector ⟨0⟩] (.vector ⟨1⟩) (by decide))
  obtain ⟨shown, hidden, _, dead⟩ := lookup_after_run (RunIn.of_run (c := ⟨0⟩) run₆) rfl
    [.context ⟨0⟩, .vector ⟨0⟩] (by decide) (fun _ => List.not_mem_nil)
  refine ⟨_, _, RunIn.of_run run₆, rfl, ?_, ?_, ?_⟩
  · exact (shown _ _).mpr ⟨by decide, rfl, rfl, rfl⟩
  · exact dead (by decide) _ (List.mem_cons_self) (.vector ⟨1⟩) rfl rfl (by decide)
  · exact hidden ⟨0⟩ (fun o shows => absurd shows.2.2.1 (by decide))

/-- A vector whose peer is released by hand still shows its handle, but the handle finds nothing. -/
theorem lookup_after_release :
    ∃ past h k, Run Distinct {} past h ∧
      h.Shows [.context ⟨0⟩, .vector ⟨0⟩] ⟨0⟩ k (.vector ⟨0⟩) ∧
      (h.release ⟨0⟩ ⟨0⟩).1.Shows [.context ⟨0⟩, .vector ⟨0⟩] ⟨0⟩ k (.vector ⟨0⟩) ∧
      (h.release ⟨0⟩ ⟨0⟩).1.dead [.context ⟨0⟩, .vector ⟨0⟩] = [] ∧
      ∀ o h', Op.lookup ⟨0⟩ k (h.release ⟨0⟩ ⟨0⟩).1 ≠ .ok o h' := by
  have run₁ : Run Distinct {} [{}] _ :=
    Run.start.step (.answer (.newContext .default) ⟨by decide, by simp⟩ rfl)
  have run₂ := run₁.step (.answer (.newVector ⟨0⟩ .int [.int 1]) ⟨by decide, by simp⟩ rfl)
  have run₃ := run₂.step (.answer (.ensureHandle (.vector ⟨0⟩)) ⟨by decide, by simp⟩ rfl)
  refine ⟨_, _, ⟨0x0DEF000000000001⟩, run₃, ⟨by decide, rfl, rfl, rfl⟩, ⟨by decide, rfl, rfl, rfl⟩,
    rfl, fun o h' => ?_⟩
  exact nofun

end

end Heap
end VectorHeap
