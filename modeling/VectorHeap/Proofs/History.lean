import VectorHeap.Proofs.Settling

/-! What a run did to the peers that a context listed on the way. Each was released once if its owner
is dead and not yet if it is alive. -/
namespace VectorHeap

namespace Heap

variable {h h' h'' : Heap}

/-! ### Nothing comes back -/

/-- What was there before is there only if it was not removed in between, and releases are final. -/
structure Follows (h h' : Heap) : Prop where
  contexts : h.contexts.next ≤ h'.contexts.next
  peers : h.peers.next ≤ h'.peers.next
  issued : ∀ o, h.Issued o → h'.Issued o
  context : ∀ c, c.index < h.contexts.next → h'.has (.context c) = true → h.has (.context c) = true
  object : ∀ o, h.Issued o → h'.isAlive o = true → h.isAlive o = true
  peer : ∀ p q', p.index < h.peers.next → h'.peers.find? p = some q' →
    ∃ q, h.peers.find? p = some q ∧ q'.owner = q.owner ∧ (q.released = true → q'.released = true)

theorem Follows.refl (h : Heap) : h.Follows h where
  contexts := Nat.le_refl _
  peers := Nat.le_refl _
  issued _ := id
  context _ _ := id
  object _ _ := id
  peer _ q' _ found := ⟨q', found, rfl, id⟩

theorem Follows.trans (F : h.Follows h') (F' : h'.Follows h'') : h.Follows h'' where
  contexts := Nat.le_trans F.contexts F'.contexts
  peers := Nat.le_trans F.peers F'.peers
  issued o issued := F'.issued o (F.issued o issued)
  context c old there := F.context c old (F'.context c (Nat.lt_of_lt_of_le old F.contexts) there)
  object o old alive := F.object o old (F'.object o (F.issued o old) alive)
  peer p q'' old found'' := by
    obtain ⟨q', found', owner', final'⟩ :=
      F'.peer p q'' (Nat.lt_of_lt_of_le old F.peers) found''
    obtain ⟨q, found, owner, final⟩ := F.peer p q' old found'
    exact ⟨q, found, owner'.trans owner, fun released => final' (final released)⟩

theorem Revises.follows {v : Option VectorId} {p : Option PeerId} (R : h.Revises v p h') :
    h.Follows h' where
  contexts := Nat.le_of_eq R.nexts.2.1.symm
  peers := Nat.le_of_eq R.nexts.2.2.symm
  issued _ := R.issued
  context c _ there := (R.has (.context c)).symm.trans there
  object o _ alive := (R.isAlive o).symm.trans alive
  peer i q' _ found := by
    obtain ⟨q, hq, fixed⟩ := exists_of_map_eq (R.peers i) found
    exact ⟨q, hq, congrArg (fun t => t.2.1) fixed,
      fun released => (congrArg (fun t => t.2.2) fixed).trans released⟩

theorem Rebinds.follows (R : h.Rebinds h') : h.Follows h' := by
  have F := Follows.refl h
  rw [R.rest]
  refine ⟨F.contexts, F.peers, fun o issued => ?_, F.context, fun o issued alive => ?_, F.peer⟩
  · cases o <;> exact issued
  · cases o <;> exact alive

theorem not_issued_fresh {k : Kind} {α : Type} {s : Store k α} {i : Id k} (old : i.index < s.next) :
    i ≠ s.fresh := by
  rintro rfl
  exact Nat.lt_irrefl _ old

theorem Growth.follows (I : h.Intact) (G : h.Growth h') : h.Follows h' := by
  have E := G.extends I
  have unchanged : ∀ p q', h.peers.find? p = some q' → ∃ q, h.peers.find? p = some q ∧
      q'.owner = q.owner ∧ (q.released = true → q'.released = true) :=
    fun _ q' found => ⟨q', found, rfl, id⟩
  refine ⟨E.nexts.2.2, ?_, fun _ => E.issued, fun c old there => ?_, E.revived, fun p q' old found => ?_⟩
  · cases G with
    | peer c ctx o site found own bare free =>
      change h.peers.next ≤ (h.listed c ctx.registry.nextHandle o site).peers.next
      rw [peers_listed]
      exact Nat.le_succ _
    | _ => exact Nat.le_refl _
  · cases G with
    | context config =>
      obtain ⟨ctx, found⟩ := has_context_iff.mp there
      rcases Store.eq_or_find_of_find_add found with ⟨rfl, _⟩ | found
      · exact absurd rfl (not_issued_fresh old)
      · exact has_context_iff.mpr ⟨ctx, found⟩
    | peer c' ctx o site found own bare free =>
      obtain ⟨ctx', found'⟩ := has_context_iff.mp there
      change (h.listed c' ctx.registry.nextHandle o site).contexts.find? c = some ctx' at found'
      by_cases same : c' = c
      · exact has_context_iff.mpr ⟨ctx, same ▸ found⟩
      · exact has_context_iff.mpr ⟨ctx', (context_listed_ne same).symm.trans found'⟩
    | naString c' ctx s cell found unnamed string own na =>
      exact (isSome_eq_of_map_eq (h.contexts.map_find_modify c' c _ (fun _ => ())
        (fun _ _ => rfl))).symm.trans there
    | _ => exact there
  · cases G with
    | peer c ctx o site there own bare free =>
      change (h.listed c ctx.registry.nextHandle o site).peers.find? p = some q' at found
      rw [peers_listed] at found
      rcases Store.eq_or_find_of_find_add found with ⟨rfl, _⟩ | found
      · exact absurd rfl (not_issued_fresh old)
      · exact unchanged p q' found
    | _ => exact unchanged p q' found

theorem Sheds.follows (S : h.Sheds h') : h.Follows h' where
  contexts := Nat.le_of_eq S.nexts.2.2.1.symm
  peers := Nat.le_of_eq S.nexts.2.2.2.symm
  issued o issued := by
    cases o with
    | vector v => exact Nat.lt_of_lt_of_eq issued S.nexts.1.symm
    | string s => exact Nat.lt_of_lt_of_eq issued S.nexts.2.1.symm
  context c _ there := by
    obtain ⟨ctx', found'⟩ := has_context_iff.mp there
    obtain ⟨ctx, found, _⟩ := S.contexts c ctx' found'
    exact has_context_iff.mpr ⟨ctx, found⟩
  object _ _ := S.isAlive
  peer p q' _ found' := by
    obtain ⟨q, found, rfl | ⟨fades, _⟩⟩ := S.peers p q' found'
    · exact ⟨q', found, rfl, id⟩
    · exact ⟨q, found, fades.owner, fades.released⟩

/-! ### What contexts list -/

/-- Entries stay, and those that are added are of new peers. -/
structure Lists (h h' : Heap) : Prop where
  kept : ∀ c ctx k p, h.contexts.find? c = some ctx → ctx.registry.peer? k = some p →
    ∃ ctx', h'.contexts.find? c = some ctx' ∧ ctx'.registry.peer? k = some p
  new : ∀ c ctx' k p, h'.contexts.find? c = some ctx' → ctx'.registry.peer? k = some p →
    (∃ ctx, h.contexts.find? c = some ctx ∧ ctx.registry.peer? k = some p) ∨
      h.peers.next ≤ p.index

theorem Lists.refl (h : Heap) : h.Lists h :=
  ⟨fun _ ctx _ _ found entry => ⟨ctx, found, entry⟩,
    fun _ ctx _ _ found entry => .inl ⟨ctx, found, entry⟩⟩

theorem Lists.trans (L : h.Lists h') (L' : h'.Lists h'') (later : h.peers.next ≤ h'.peers.next) :
    h.Lists h'' where
  kept c ctx k p found entry := by
    obtain ⟨ctx', found', entry'⟩ := L.kept c ctx k p found entry
    exact L'.kept c ctx' k p found' entry'
  new c ctx'' k p found'' entry'' := by
    rcases L'.new c ctx'' k p found'' entry'' with ⟨ctx', found', entry'⟩ | fresh
    · exact L.new c ctx' k p found' entry'
    · exact .inr (Nat.le_trans later fresh)

theorem lists_of_same (back : ∀ c ctx', h'.contexts.find? c = some ctx' →
      (∃ ctx, h.contexts.find? c = some ctx ∧ ctx'.registry.peers = ctx.registry.peers) ∨
        ctx'.registry.peers = .empty)
    (forth : ∀ c ctx, h.contexts.find? c = some ctx →
      ∃ ctx', h'.contexts.find? c = some ctx' ∧ ctx'.registry.peers = ctx.registry.peers) :
    h.Lists h' where
  kept c ctx k p found entry := by
    obtain ⟨ctx', found', same⟩ := forth c ctx found
    exact ⟨ctx', found', (congrArg (fun t => t.find? k) same).trans entry⟩
  new c ctx' k p found' entry := by
    rcases back c ctx' found' with ⟨ctx, found, same⟩ | none
    · exact .inl ⟨ctx, found, (congrArg (fun t => t.find? k) same).symm.trans entry⟩
    · rw [Registry.peer?, none] at entry
      exact absurd entry (by simp)

theorem Revises.lists {v : Option VectorId} {p : Option PeerId} (R : h.Revises v p h') :
    h.Lists h' := by
  refine lists_of_same (fun c ctx' found' => ?_) (fun c ctx found => ?_)
  · obtain ⟨ctx, found, same⟩ := exists_of_map_eq (R.contexts c) found'
    exact .inl ⟨ctx, found, congrArg Accounts.peers same⟩
  · obtain ⟨ctx', found', same⟩ := exists_of_map_eq (R.contexts c).symm found
    exact ⟨ctx', found', (congrArg Accounts.peers same).symm⟩

theorem Growth.lists (G : h.Growth h') : h.Lists h' := by
  cases G with
  | peer c ctx o site found own bare free =>
    change h.Lists (h.listed c ctx.registry.nextHandle o site)
    refine ⟨fun i ctx' k p found' entry => ?_, fun i ctx' k p found' entry => ?_⟩
    · by_cases same : c = i
      · subst same
        cases found.symm.trans found'
        refine ⟨_, context_listed found, peer_listing.mpr (.inr ⟨fun taken => ?_, entry⟩)⟩
        exact absurd (free.symm.trans (taken ▸ entry)) (by simp)
      · exact ⟨ctx', (context_listed_ne same).trans found', entry⟩
    · by_cases same : c = i
      · subst same
        cases (context_listed found).symm.trans found'
        rcases peer_listing.mp entry with ⟨_, rfl⟩ | ⟨_, old⟩
        · exact .inr (Nat.le_refl _)
        · exact .inl ⟨ctx, found, old⟩
      · exact .inl ⟨ctx', (context_listed_ne same).symm.trans found', entry⟩
  | context config =>
    refine lists_of_same (fun c ctx' found' => ?_) (fun c ctx found => ?_)
    · rcases Store.eq_or_find_of_find_add found' with ⟨_, rfl⟩ | found
      · exact .inr rfl
      · exact .inl ⟨ctx', found, rfl⟩
    · exact ⟨ctx, Store.find_add_of_find _ found, rfl⟩
  | naString c ctx s cell found unnamed string own na =>
    refine lists_of_same (fun i ctx' found' => ?_) (fun i ctx' found' => ?_)
    · obtain ⟨ctx, found, same⟩ := exists_of_map_eq (h.contexts.map_find_modify c i
        (fun ctx => { ctx with naString := some s }) (fun ctx => ctx.registry.peers)
        (fun _ _ => rfl)) found'
      exact .inl ⟨ctx, found, same⟩
    · obtain ⟨ctx, found, same⟩ := exists_of_map_eq (h.contexts.map_find_modify c i
        (fun ctx => { ctx with naString := some s }) (fun ctx => ctx.registry.peers)
        (fun _ _ => rfl)).symm found'
      exact ⟨ctx, found, same.symm⟩
  | _ => exact ⟨(Lists.refl h).kept, (Lists.refl h).new⟩

theorem Change.history {T : VectorId → Prop} {B : BufferId → Prop} (I : h.Intact)
    (C : Change T B h h') : h.Follows h' ∧ h.Lists h' := by
  cases C with
  | growth G => exact ⟨G.follows I, G.lists⟩
  | update v cell s own U metered buffers => exact ⟨U.revises.follows, U.revises.lists⟩
  | environs R buffers => exact ⟨R.follows, R.lists⟩
  | text s cell p found pointer R metered formed buffers => exact ⟨R.follows, R.lists⟩

theorem Moves.history {T : VectorId → Prop} {B : BufferId → Prop} (I : h.Intact)
    (M : Moves T B h h') : h.Follows h' ∧ h.Lists h' := by
  induction M with
  | refl => exact ⟨.refl h, .refl h⟩
  | tail first last ih =>
    obtain ⟨F, L⟩ := ih
    obtain ⟨F', L'⟩ := last.history (first.intact I)
    exact ⟨F.trans F', L.trans L' F.peers⟩

theorem Advances.history {T : VectorId → Prop} {B : BufferId → Prop} (I : h.Intact)
    (A : h.Advances T B h') : h.Follows h' ∧ h.Lists h' := by
  obtain ⟨h₁, M, rfl | R⟩ := A
  · exact M.history I
  · obtain ⟨F, L⟩ := M.history I
    have contexts : h'.contexts = h₁.contexts := by rw [R.rest]
    have L' : h₁.Lists h' := lists_of_same
      (fun c ctx found => .inl ⟨ctx, contexts ▸ found, rfl⟩)
      (fun c ctx found => ⟨ctx, contexts ▸ found, rfl⟩)
    exact ⟨F.trans R.follows, L.trans L' F.peers⟩

/-! ### Entries that go -/

/-- No entry is added, and one that goes is of a peer that is released then. -/
structure Unlists (h h' : Heap) : Prop where
  kept : ∀ c ctx ctx' k p, h.contexts.find? c = some ctx → h'.contexts.find? c = some ctx' →
    ctx.registry.peer? k = some p → ctx'.registry.peer? k = some p ∨
      ∃ q', h'.peers.find? p = some q' ∧ q'.released = true

def SameRegistries (h h' : Heap) : Prop :=
  ∀ c ctx', h'.contexts.find? c = some ctx' →
    ∃ ctx, h.contexts.find? c = some ctx ∧ ctx'.registry = ctx.registry

theorem SameRegistries.unlists (S : h.SameRegistries h') : h.Unlists h' := by
  refine ⟨fun c ctx ctx' k p found found' entry => .inl ?_⟩
  obtain ⟨ctx₀, found₀, same⟩ := S c ctx' found'
  cases found.symm.trans found₀
  exact same ▸ entry

theorem SameRegistries.trans (S : h.SameRegistries h') (S' : h'.SameRegistries h'') :
    h.SameRegistries h'' := by
  intro c ctx'' found''
  obtain ⟨ctx', found', same'⟩ := S' c ctx'' found''
  obtain ⟨ctx, found, same⟩ := S c ctx' found'
  exact ⟨ctx, found, same'.trans same⟩

theorem modifyReclaimer_same (h : Heap) (c : ContextId) (f : Reclaimer → Reclaimer) :
    h.SameRegistries (h.modifyReclaimer c f) := by
  intro i ctx' found'
  exact exists_of_map_eq (h.contexts.map_find_modify c i
    (fun ctx => { ctx with reclaimer := f ctx.reclaimer }) (fun ctx => ctx.registry)
    (fun _ _ => rfl)) found'

theorem without_same (h : Heap) (r : Ref) : h.SameRegistries (h.without r) :=
  fun c ctx' found' => ⟨ctx', (find_without h r).2.2.2.1 c ctx' found', rfl⟩

variable {c : ContextId} {p : PeerId}

theorem SameRegistries.finishPeer (S : h.SameRegistries h') : h.Unlists (h'.finishPeer c p) := by
  cases hq : h'.peers.find? p with
  | none =>
    have run : h'.finishPeer c p = h'.modifyReclaimer c (·.finish false) := by
      unfold Heap.finishPeer release
      rw [hq]
    rw [run]
    exact (S.trans (modifyReclaimer_same h' c _)).unlists
  | some q =>
    cases released : q.released with
    | true =>
      have run : h'.finishPeer c p = h'.modifyReclaimer c (·.finish false) := by
        unfold Heap.finishPeer
        rw [release_eq hq, released]
        rfl
      rw [run]
      exact (S.trans (modifyReclaimer_same h' c _)).unlists
    | false =>
      refine ⟨fun i ctx ctx'' k p' found found'' entry => ?_⟩
      by_cases same : c = i
      · subst same
        cases found' : h'.contexts.find? c with
        | none =>
          have gone : (h'.finishPeer c p).has (.context c) = false := by
            rw [finishPeer_eq hq released]
            refine (isSome_eq_of_map_eq ((Store.map_find_modify _ c c _ (fun _ => ())
              (fun _ _ => rfl)).trans (Store.map_find_modify _ c c _ (fun _ => ())
              (fun _ _ => rfl)))).trans ?_
            rw [found']
            rfl
          rw [has_context_iff.mpr ⟨ctx'', found''⟩] at gone
          exact absurd gone (by decide)
        | some ctx' =>
          obtain ⟨ctx₀, found₀, registry⟩ := S c ctx' found'
          cases found.symm.trans found₀
          cases (context_finished hq released found').symm.trans found''
          rw [← registry] at entry
          by_cases mine : k = q.handle ∧ p' = p
          · obtain ⟨rfl, rfl⟩ := mine
            refine .inr ⟨q.emptied, ?_, rfl⟩
            rw [peers_finished hq released]
            exact (Store.find_modify_self _ _ _).trans (by rw [hq]; rfl)
          · exact .inl (peer_unlisting_of_ne entry mine)
      · have found' := (context_finished_ne hq released same).symm.trans found''
        obtain ⟨ctx₀, found₀, registry⟩ := S i ctx'' found'
        cases found.symm.trans found₀
        exact .inl (registry ▸ entry)

theorem SameRegistries.reclaim (S : h.SameRegistries h') : h.Unlists (h'.reclaim c p) := by
  have counted := S.trans (modifyReclaimer_same h' c (·.count))
  rcases reclaim_cases h' c p with ⟨running, queued⟩ | direct | ⟨panic, refused⟩
  · rw [queued]
    exact (counted.trans (modifyReclaimer_same _ c _)).unlists
  · rw [direct]
    exact counted.finishPeer
  · rw [refused]
    exact ⟨counted.unlists.kept⟩

theorem bury_unlists (I : h.Intact) (r : Ref) : h.Unlists (h.bury r) := by
  rcases bury_cases I r with ⟨plain, _⟩ | ⟨o, c, p, _, _, _, _, handed⟩
  · rw [plain]
    exact (without_same h r).unlists
  · rw [handed]
    exact (without_same h r).reclaim

theorem work_unlists (h : Heap) (c : ContextId) : h.Unlists (h.work c) := by
  rcases work_cases h c with idle | ⟨ctx, p, rest, _, _, run⟩
  · refine ⟨fun i ctx ctx' k p found found' entry => .inl ?_⟩
    rw [idle] at found'
    cases found.symm.trans found'
    exact entry
  · rw [run]
    exact (modifyReclaimer_same h c _).finishPeer

theorem shutdown_unlists (h : Heap) (c : ContextId) : h.Unlists (h.shutdown c) :=
  (modifyReclaimer_same h c _).unlists

/-! ### Steps -/

/-- No handle is registered twice. -/
def Distinct (f : Fault) : Prop := ∀ k, f ≠ .panic (.registeredTwice k)

/-- What a step did to the entries of contexts. -/
structure Passes (h h' : Heap) : Prop where
  follows : h.Follows h'
  going : ∀ c ctx ctx' k p, h.contexts.find? c = some ctx → h'.contexts.find? c = some ctx' →
    ctx.registry.peer? k = some p → ctx'.registry.peer? k = some p ∨
      ∃ q', h'.peers.find? p = some q' ∧ q'.released = true ∧ h'.isAlive q'.owner = false
  coming : ∀ c ctx' k p, h'.contexts.find? c = some ctx' → ctx'.registry.peer? k = some p →
    (∃ ctx, h.contexts.find? c = some ctx ∧ ctx.registry.peer? k = some p) ∨
      h.peers.next ≤ p.index

theorem Advances.passes {T : VectorId → Prop} {B : BufferId → Prop} (I : h.Intact)
    (A : h.Advances T B h') : h.Passes h' := by
  obtain ⟨F, L⟩ := A.history I
  refine ⟨F, fun c ctx ctx' k p found found' entry => .inl ?_, L.new⟩
  obtain ⟨ctx₁, found₁, entry'⟩ := L.kept c ctx k p found entry
  cases found'.symm.trans found₁
  exact entry'

theorem Sheds.passes (B : h.Balanced) (S : h.Sheds h') (U : h.Unlists h') : h.Passes h' := by
  refine ⟨S.follows, fun c ctx ctx' k p found found' entry => ?_, fun c ctx' k p found' entry => .inl ?_⟩
  · refine (U.kept c ctx ctx' k p found found' entry).imp id (fun ⟨q', hq', released⟩ => ?_)
    obtain ⟨q, hq, live, _⟩ := (B c ctx found).entry k p entry
    obtain ⟨q₀, hq₀, rfl | ⟨fades, dead⟩⟩ := S.peers p q' hq'
    · cases hq.symm.trans hq₀
      exact absurd (live.symm.trans released) (by decide)
    · exact ⟨_, hq', released, fades.owner ▸ dead⟩
  · obtain ⟨ctx, found, _, _, _, _, _, entries, _⟩ := S.contexts c ctx' found'
    exact ⟨ctx, found, entries k p entry⟩

/-- One step keeps the accounts of all contexts. -/
theorem step_balanced (I : h.Intact) (B : h.Balanced) (s : Step Distinct h h') :
    h'.Balanced ∧ h.Passes h' := by
  cases s with
  | answer call ok run =>
    have A := (call.ends I ok).ok run
    exact ⟨A.balanced I B, A.passes I⟩
  | stop call f ok run expected =>
    rcases (call.ends I ok).error run with ⟨_, A⟩ | ⟨⟨k, rfl⟩, _⟩
    · exact ⟨A.balanced I B, A.passes I⟩
    · exact absurd rfl (expected k)
  | bury roots r dead =>
    have unheld := (mem_dead_iff.mp dead).2.2.1
    exact ⟨bury_balanced I B unheld, (bury_sheds I unheld).passes B (bury_unlists I r)⟩
  | work c => exact ⟨work_balanced I B c, (work_sheds I c).passes B (work_unlists h c)⟩
  | shutdown c => exact ⟨shutdown_balanced B c, (shutdown_sheds I c).passes B (shutdown_unlists h c)⟩

theorem balanced_of_supply (supply : Nat → Nat → Option Address) : Heap.Balanced { supply } :=
  fun _ _ found => absurd found (by simp)

theorem run_balanced {supply : Nat → Nat → Option Address} {past : List Heap}
    (run : Run Distinct { supply } past h) : h.Balanced := by
  induction run with
  | start => exact balanced_of_supply supply
  | step first last ih => exact (step_balanced (run_intact (intact_of_supply supply) first) ih last).1

/-! ### Releases along a run -/

def releasedBetween (p : PeerId) (h h' : Heap) : Bool :=
  (h.peers.find? p).any (fun q => !q.released) && (h'.peers.find? p).any (·.released)

def releases (p : PeerId) : List Heap → Nat
  | h' :: h :: past => (if releasedBetween p h h' then 1 else 0) + releases p (h :: past)
  | _ => 0

def ListsPeer (h : Heap) (c : ContextId) (p : PeerId) (o : Object) : Prop :=
  ∃ ctx k q, h.contexts.find? c = some ctx ∧ ctx.registry.peer? k = some p ∧
    h.peers.find? p = some q ∧ q.owner = o

def WasListed (c : ContextId) (p : PeerId) (o : Object) (trace : List Heap) : Prop :=
  ∃ g ∈ trace, g.ListsPeer c p o

structure Gone (h : Heap) (p : PeerId) (o : Object) : Prop where
  dead : h.isAlive o = false
  issued : h.Issued o
  released : ∀ q, h.peers.find? p = some q → q.released = true

/-- Peers that were listed are listed still and were never released, or they were released once. -/
structure Recorded (trace : List Heap) (h : Heap) : Prop where
  fresh : ∀ p, h.peers.next ≤ p.index → releases p trace = 0
  context : ∀ c p o, WasListed c p o trace → c.index < h.contexts.next
  peer : ∀ c p o, WasListed c p o trace → p.index < h.peers.next
  once : ∀ c p o, h.has (.context c) = true → WasListed c p o trace →
    (h.ListsPeer c p o ∧ releases p trace = 0) ∨ (h.Gone p o ∧ releases p trace = 1)

theorem releasedBetween_of_late {p : PeerId} (late : h.peers.next ≤ p.index) :
    releasedBetween p h h' = false := by
  cases found : h.peers.find? p with
  | none => simp [releasedBetween, found]
  | some q => exact absurd (Store.lt_next_of_find _ p q found) (Nat.not_lt.mpr late)

theorem releasedBetween_of_live {p : PeerId} {q' : Peer} (found' : h'.peers.find? p = some q')
    (live : q'.released = false) : releasedBetween p h h' = false := by
  simp [releasedBetween, found', live]

theorem releasedBetween_of_gone {p : PeerId} (released : ∀ q, h.peers.find? p = some q →
    q.released = true) : releasedBetween p h h' = false := by
  cases found : h.peers.find? p with
  | none => simp [releasedBetween, found]
  | some q => simp [releasedBetween, found, released q found]

theorem ListsPeer.live (B : h.Balanced) {c : ContextId} {p : PeerId} {o : Object}
    (L : h.ListsPeer c p o) {q : Peer} (found : h.peers.find? p = some q) : q.released = false := by
  obtain ⟨ctx, k, _, hctx, entry, _⟩ := L
  obtain ⟨q', found', live, _⟩ := (B c ctx hctx).entry k p entry
  cases found.symm.trans found'
  exact live

theorem Passes.listed (P : h.Passes h') (B : h.Balanced) (I' : h'.Intact) (B' : h'.Balanced)
    {c : ContextId} {p : PeerId} {o : Object} (L : h.ListsPeer c p o)
    (there : h'.has (.context c) = true) :
    (h'.ListsPeer c p o ∧ releasedBetween p h h' = false) ∨
      (h'.Gone p o ∧ releasedBetween p h h' = true) := by
  obtain ⟨ctx, k, q, found, entry, hq, owner⟩ := L
  obtain ⟨ctx', found'⟩ := has_context_iff.mp there
  have old := Store.lt_next_of_find _ p q hq
  rcases P.going c ctx ctx' k p found found' entry with entry' | ⟨q', hq', released, dead⟩
  · obtain ⟨q', hq', live, _⟩ := (B' c ctx' found').entry k p entry'
    obtain ⟨q₀, hq₀, owner', _⟩ := P.follows.peer p q' old hq'
    cases hq.symm.trans hq₀
    exact .inl ⟨⟨ctx', k, q', found', entry', hq', owner'.trans owner⟩,
      releasedBetween_of_live hq' live⟩
  · obtain ⟨q₀, hq₀, owner', _⟩ := P.follows.peer p q' old hq'
    cases hq.symm.trans hq₀
    have live := ListsPeer.live B ⟨ctx, k, q, found, entry, hq, owner⟩ hq
    refine .inr ⟨⟨?_, ?_, fun q'' hq'' => ?_⟩, by simp [releasedBetween, hq, hq', live, released]⟩
    · rw [← owner, ← owner']
      exact dead
    · rw [← owner, ← owner']
      exact (I'.peers p q' hq').issued
    · cases hq'.symm.trans hq''
      exact released

theorem Passes.gone (P : h.Passes h') {p : PeerId} {o : Object} (G : h.Gone p o)
    (old : p.index < h.peers.next) : h'.Gone p o where
  dead := Bool.eq_false_iff.mpr (fun alive =>
    absurd ((P.follows.object o G.issued alive).symm.trans G.dead) (by decide))
  issued := P.follows.issued o G.issued
  released q' hq' := by
    obtain ⟨q, hq, _, final⟩ := P.follows.peer p q' old hq'
    exact final (G.released q hq)

theorem wasListed_cons {c : ContextId} {p : PeerId} {o : Object} {trace : List Heap} :
    WasListed c p o (h :: trace) ↔ h.ListsPeer c p o ∨ WasListed c p o trace := by
  constructor
  · rintro ⟨g, hg, L⟩
    rcases List.mem_cons.mp hg with rfl | hg
    · exact .inl L
    · exact .inr ⟨g, hg, L⟩
  · rintro (L | ⟨g, hg, L⟩)
    · exact ⟨h, List.mem_cons_self, L⟩
    · exact ⟨g, List.mem_cons_of_mem _ hg, L⟩

theorem Passes.was_listed (P : h.Passes h') (B : h.Balanced) {c : ContextId} {p : PeerId} {o : Object}
    (L : h'.ListsPeer c p o) : h.ListsPeer c p o ∨ h.peers.next ≤ p.index := by
  obtain ⟨ctx', k, q', found', entry', hq', owner⟩ := L
  refine (P.coming c ctx' k p found' entry').imp (fun ⟨ctx, found, entry⟩ => ?_) id
  obtain ⟨q, hq, _⟩ := (B c ctx found).entry k p entry
  obtain ⟨q₀, hq₀, owner', _⟩ := P.follows.peer p q' (Store.lt_next_of_find _ p q hq) hq'
  cases hq.symm.trans hq₀
  exact ⟨ctx, k, q, found, entry, hq, owner'.symm.trans owner⟩

theorem Recorded.step {past : List Heap} (R : Recorded (h :: past) h) (P : h.Passes h')
    (B : h.Balanced) (I' : h'.Intact) (B' : h'.Balanced) : Recorded (h' :: h :: past) h' where
  fresh p late := by
    have earlier := Nat.le_trans P.follows.peers late
    rw [releases, releasedBetween_of_late earlier, R.fresh p earlier]
    rfl
  context c p o was := by
    rcases wasListed_cons.mp was with ⟨ctx, k, q, found, _⟩ | was
    · exact Store.lt_next_of_find _ c ctx found
    · exact Nat.lt_of_lt_of_le (R.context c p o was) P.follows.contexts
  peer c p o was := by
    rcases wasListed_cons.mp was with ⟨ctx, k, q, _, _, hq, _⟩ | was
    · exact Store.lt_next_of_find _ p q hq
    · exact Nat.lt_of_lt_of_le (R.peer c p o was) P.follows.peers
  once c p o there was := by
    -- Either the peer is new in this step, or the heaps before tell what became of it.
    by_cases old : WasListed c p o (h :: past)
    · have there₀ := P.follows.context c (R.context c p o old) there
      rcases R.once c p o there₀ old with ⟨L, none⟩ | ⟨G, one⟩
      · rcases P.listed B I' B' L there with ⟨L', kept⟩ | ⟨G', released⟩
        · exact .inl ⟨L', by rw [releases, kept, none]; rfl⟩
        · exact .inr ⟨G', by rw [releases, released, none]; rfl⟩
      · refine .inr ⟨P.gone G (R.peer c p o old), ?_⟩
        rw [releases, releasedBetween_of_gone G.released, one]
        rfl
    · rcases wasListed_cons.mp was with L' | was
      · rcases P.was_listed B L' with L | late
        · exact absurd (wasListed_cons.mpr (.inl L)) old
        · refine .inl ⟨L', ?_⟩
          rw [releases, releasedBetween_of_late late, R.fresh p late]
          rfl
      · exact absurd was old

theorem run_recorded {supply : Nat → Nat → Option Address} {past : List Heap}
    (run : Run Distinct { supply } past h) : Recorded (h :: past) h := by
  induction run with
  | start =>
    have none : ∀ c p o, ¬ WasListed c p o [{ supply }] := by
      rintro c p o ⟨g, hg, ctx, k, q, found, _⟩
      cases List.mem_singleton.mp hg
      exact absurd found (by simp)
    exact ⟨fun _ _ => rfl, fun c p o was => absurd was (none c p o),
      fun c p o was => absurd was (none c p o), fun c p o _ was => absurd was (none c p o)⟩
  | step first last ih =>
    have I := run_intact (intact_of_supply supply) first
    have B := run_balanced first
    obtain ⟨B', P⟩ := step_balanced I B last
    exact ih.step P B (step_intact I last) B'

end Heap
end VectorHeap
