import VectorHeap.Proofs.Accounting

/-! Burials and releases keep the accounts. The death of an object is owed to the accounts of its
context until its peer is handed in, and its entry goes when the peer is released. -/
namespace VectorHeap

namespace Heap

variable {h h' : Heap} {c : ContextId} {ctx : Context} {n : Nat} {r : Ref} {p : PeerId} {k : Handle}

/-- The accounts of all contexts are right, but that one does not count so many deaths yet. -/
def Owing (h : Heap) (c : ContextId) (n : Nat) : Prop :=
  ∀ c' ctx, h.contexts.find? c' = some ctx → h.Accounted c' ctx (if c = c' then n else 0)

theorem owing_zero : h.Owing c 0 ↔ h.Balanced := by
  simp only [Owing, ite_self]
  rfl

/-! ### Objects that go -/

theorem contextOf_without {o : Object} (other : r ≠ .ofObject o) :
    (h.without r).contextOf? o = h.contextOf? o := by
  cases o with
  | vector v =>
    cases r with
    | vector w =>
      refine congrArg (Option.map _) ((h.vectors.find_erase w v).trans (if_neg ?_))
      exact fun same => other (congrArg Ref.vector same)
    | _ => rfl
  | string s =>
    cases r with
    | string w =>
      refine congrArg (Option.map _) ((h.strings.find_erase w s).trans (if_neg ?_))
      exact fun same => other (congrArg Ref.string same)
    | _ => rfl

theorem contextOf_without_self (h : Heap) (o : Object) :
    (h.without (.ofObject o)).contextOf? o = none := by
  cases o with
  | vector v => exact congrArg (Option.map _) ((h.vectors.find_erase v v).trans (if_pos rfl))
  | string s => exact congrArg (Option.map _) ((h.strings.find_erase s s).trans (if_pos rfl))

theorem peerOf_without {o : Object} (other : r ≠ .ofObject o) :
    (h.without r).peerOf? o = h.peerOf? o := by
  cases o with
  | vector v =>
    cases r with
    | vector w =>
      refine congrArg (Option.bind · _) ((h.vectors.find_erase w v).trans (if_neg ?_))
      exact fun same => other (congrArg Ref.vector same)
    | _ => rfl
  | string s =>
    cases r with
    | string w =>
      refine congrArg (Option.bind · _) ((h.strings.find_erase w s).trans (if_neg ?_))
      exact fun same => other (congrArg Ref.string same)
    | _ => rfl

theorem contexts_without (o : Object) : (h.without (.ofObject o)).contexts = h.contexts := by
  cases o <;> rfl

theorem ne_of_contextOf_without {o : Object} (own : (h.without r).contextOf? o = some c) :
    r ≠ .ofObject o := by
  rintro rfl
  exact absurd ((contextOf_without_self h o).symm.trans own) (by simp)

theorem listed_held (found : h.contexts.find? c = some ctx) (entry : ctx.registry.peer? k = some p) :
    .peer p ∈ h.refs :=
  mem_refs_iff.mpr (.inr (.inr (.inr (.inl ⟨c, ctx, found,
    mem_context_refs.mpr (.inr (.inl ⟨k, p, entry, rfl⟩))⟩))))

theorem find_peer_without (unheld : r ∉ h.refs) (held : .peer p ∈ h.refs) :
    (h.without r).peers.find? p = h.peers.find? p := by
  cases r with
  | peer i =>
    refine (h.peers.find_erase i p).trans (if_neg ?_)
    rintro rfl
    exact unheld held
  | _ => rfl

theorem without_carries (A : h.Accounted c ctx n) (found : h.contexts.find? c = some ctx)
    (unheld : r ∉ h.refs)
    (apart : ∀ o, r = .ofObject o → h.contextOf? o = some c → h.peerOf? o = none) :
    h.Carries (h.without r) c ctx := by
  obtain ⟨_, _, peers, contexts, _⟩ := find_without h r
  refine ⟨fun k p q entry hq => ?_, fun k p q entry hq => ?_, ?_, fun o p q' own pointer hq' => ?_⟩
  · exact ⟨q, (find_peer_without unheld (listed_held found entry)).trans hq, rfl⟩
  · by_cases gone : r = .ofObject q.owner
    · have dead : h.contextOf? q.owner = none := by
        obtain ⟨q₀, hq₀, _, owner⟩ := A.entry k p entry
        cases hq.symm.trans hq₀
        cases own : h.contextOf? q.owner with
        | none => rfl
        | some c' =>
          obtain ⟨rfl, pointer⟩ := owner c' own
          exact absurd ((apart q.owner gone own).symm.trans pointer) (by simp)
      refine ⟨?_, fun i pointer => ?_⟩
      · rw [dead, gone, contextOf_without_self]
      · obtain ⟨c', own⟩ := isAlive_iff_contextOf.mp (alive_of_peerOf pointer)
        exact absurd (dead.symm.trans own) (by simp)
    · exact ⟨contextOf_without gone, fun i pointer => (peerOf_without gone).trans pointer⟩
  · exact fun k p c' ctx' k' _ there entry => ⟨ctx', contexts c' ctx' there, entry⟩
  · have other := ne_of_contextOf_without own
    rw [contextOf_without other] at own
    rw [peerOf_without other] at pointer
    exact ⟨q', own, pointer, peers p q' hq', rfl⟩

theorem countP_entries {t : Table Handle PeerId} (found : t.find? k = some p)
    (f : Handle × PeerId → Bool) :
    t.entries.countP f = (t.erase k).entries.countP f + if f (k, p) then 1 else 0 :=
  ((Assoc.perm_erase t.entries k p found).countP_eq f).trans List.countP_cons

theorem Intact.ne_of_mem_erase (I : h.Intact) (found : h.contexts.find? c = some ctx)
    (entry : ctx.registry.peer? k = some p) (there : ∃ q, h.peers.find? p = some q)
    {e : Handle × PeerId} (mem : e ∈ (ctx.registry.peers.erase k).entries) :
    ctx.registry.peer? e.1 = some e.2 ∧ e.1 ≠ k ∧ e.2 ≠ p := by
  have rest := (Table.mem_entries_iff _ e.1 e.2).mp mem
  rw [Table.find_erase] at rest
  split at rest
  · exact absurd rest (by simp)
  · rename_i other
    refine ⟨rest, fun same => other same.symm, fun same => ?_⟩
    obtain ⟨q, hq⟩ := there
    have handle := I.handle_of_entry found entry hq
    have handle' := I.handle_of_entry found (p := p) (same ▸ rest) hq
    exact other (handle.symm.trans handle')

theorem without_accounted (I : h.Intact) (A : h.Accounted c ctx 0)
    (found : h.contexts.find? c = some ctx) {o : Object} (own : h.contextOf? o = some c)
    (pointer : h.peerOf? o = some p) (unheld : Ref.ofObject o ∉ h.refs) :
    (h.without (.ofObject o)).Accounted c ctx 1 := by
  obtain ⟨_, _, peers, contexts, _⟩ := find_without h (.ofObject o)
  obtain ⟨q, hq, owner, _⟩ := I.peer_of_object pointer
  have entry := A.listed o p q own pointer hq
  have kept : ∀ k' p', ctx.registry.peer? k' = some p' →
      (h.without (.ofObject o)).peers.find? p' = h.peers.find? p' := fun k' p' entry' =>
    find_peer_without unheld (listed_held found entry')
  have others : ∀ k' p' q', ctx.registry.peer? k' = some p' → h.peers.find? p' = some q' →
      p' ≠ p → Ref.ofObject o ≠ .ofObject q'.owner := by
    intro k' p' q' entry' hq' other same
    have same : o = q'.owner := by
      cases o <;> cases ho : q'.owner <;> rw [ho] at same <;> cases same <;> rfl
    obtain ⟨q₀, hq₀, _, owns⟩ := A.entry k' p' entry'
    cases hq'.symm.trans hq₀
    exact other (Option.some.inj ((owns c (same ▸ own)).2.symm.trans (same ▸ pointer)))
  refine
    { entry := fun k' p' entry' => ?_, own := fun k' p' c' ctx' k'' entry' there =>
        A.own k' p' c' ctx' k'' entry' (contexts c' ctx' there)
      listed := fun o' p' q' own' pointer' hq' => ?_, nodup := A.nodup, waiting := A.waiting
      size := A.size, pending := ?_ }
  · obtain ⟨q', hq', live, owns⟩ := A.entry k' p' entry'
    refine ⟨q', (kept k' p' entry').trans hq', live, fun c' own' => ?_⟩
    have other := ne_of_contextOf_without own'
    rw [contextOf_without other] at own'
    rw [peerOf_without other]
    exact owns c' own'
  · have other := ne_of_contextOf_without own'
    rw [contextOf_without other] at own'
    rw [peerOf_without other] at pointer'
    exact A.listed o' p' q' own' pointer' (peers p' q' hq')
  -- One entry more is forsaken, the one of the object; the other owners are not it.
  · have before := A.pending
    rw [countP_entries entry] at before ⊢
    have alive : h.isForsaken p = false := by rw [isForsaken_eq hq, owner, own]; rfl
    have dead : (h.without (.ofObject o)).isForsaken p = true := by
      rw [isForsaken_eq ((kept _ p entry).trans hq), owner, contextOf_without_self]
      rfl
    have rest : (ctx.registry.peers.erase q.handle).entries.countP
          (fun e => (h.without (.ofObject o)).isForsaken e.2) =
        (ctx.registry.peers.erase q.handle).entries.countP (fun e => h.isForsaken e.2) := by
      refine List.countP_congr (fun e he => ?_)
      obtain ⟨entry', _, other⟩ := I.ne_of_mem_erase found entry ⟨q, hq⟩ he
      obtain ⟨q', hq', _⟩ := A.entry e.1 e.2 entry'
      rw [isForsaken_eq hq', isForsaken_eq ((kept e.1 e.2 entry').trans hq'),
        contextOf_without (others e.1 e.2 q' entry' hq' other)]
    simp only [alive, dead, rest, Bool.false_eq_true, if_false, if_true] at before ⊢
    omega

/-! ### Peers that are handed in -/

theorem modifyContext_carries (h : Heap) (c₀ : ContextId) (f : Context → Context)
    (c : ContextId) (ctx : Context)
    (kept : ∀ ctx₀ k p, (f ctx₀).registry.peer? k = some p → ctx₀.registry.peer? k = some p) :
    h.Carries (h.modifyContext c₀ f) c ctx where
  peers _ _ q _ hq := ⟨q, hq, rfl⟩
  owners _ _ q _ _ := by
    refine ⟨?_, fun i pointer => ?_⟩
    · cases q.owner <;> rfl
    · cases ho : q.owner <;> rw [ho] at pointer <;> exact pointer
  own _ p c' ctx' k' _ there entry := by
    by_cases same : c₀ = c'
    · subst same
      rw [modifyContext, Store.find_modify_self] at there
      obtain ⟨ctx₀, found, rfl⟩ := Option.map_eq_some_iff.mp there
      exact ⟨ctx₀, found, kept ctx₀ k' p entry⟩
    · exact ⟨ctx', (h.contexts.find_modify_ne f same).symm.trans there, entry⟩
  listed o p q' own pointer hq' := by
    refine ⟨q', ?_, ?_, hq', rfl⟩
    · cases o <;> exact own
    · cases o <;> exact pointer

theorem Owing.modifyReclaimer (O : h.Owing c n) (f : Reclaimer → Reclaimer) {m : Nat}
    (counts : ∀ ctx, h.contexts.find? c = some ctx → h.Accounted c ctx n →
      (f ctx.reclaimer).queue.Nodup ∧
      (∀ p ∈ (f ctx.reclaimer).queue, ∃ k, ctx.registry.peer? k = some p) ∧
      (f ctx.reclaimer).released = ctx.reclaimer.released ∧
      (f ctx.reclaimer).pending + m = ctx.reclaimer.pending + n) :
    (h.modifyReclaimer c f).Owing c m := by
  intro c' ctx' found'
  by_cases same : c = c'
  · subst same
    rw [Heap.modifyReclaimer, modifyContext, Store.find_modify_self] at found'
    obtain ⟨ctx, found, rfl⟩ := Option.map_eq_some_iff.mp found'
    have A := O c ctx found
    rw [if_pos rfl] at A ⊢
    obtain ⟨nodup, waiting, released, pending⟩ := counts ctx found A
    have carried : (h.modifyReclaimer c f).Accounted c ctx n :=
      A.carry (modifyContext_carries h c _ c ctx (fun _ _ _ => id)) rfl
    refine
      { entry := carried.entry, own := carried.own, listed := carried.listed, nodup, waiting
        size := ?_, pending := pending.trans carried.pending }
    change ctx.registry.peers.size + (f ctx.reclaimer).released = ctx.registry.registered
    rw [released]
    exact A.size
  · have found : h.contexts.find? c' = some ctx' :=
      (h.contexts.find_modify_ne _ same).symm.trans found'
    have A := O c' ctx' found
    rw [if_neg same] at A ⊢
    exact A.carry (modifyContext_carries h c _ c' ctx' (fun _ _ _ => id)) rfl

/-! ### Peers that are released -/

/-- A context that no longer lists a peer, and counted its release. -/
def unlisting (ctx : Context) (q : Peer) (p : PeerId) : Context :=
  { ctx with
    registry := (ctx.registry.remove q.handle p).dropContents q.backing
    reclaimer := ctx.reclaimer.finish true }

section
variable {q : Peer}

theorem finishPeer_eq (hq : h.peers.find? p = some q) (live : q.released = false)
    (c : ContextId) : h.finishPeer c p = ((h.modifyRegistry c
      (fun r => (r.remove q.handle p).dropContents q.backing)).modifyPeer p Peer.emptied).modifyReclaimer
        c (·.finish true) := by
  unfold finishPeer
  rw [release_eq hq, live]
  rfl

theorem context_finished (hq : h.peers.find? p = some q) (live : q.released = false)
    (found : h.contexts.find? c = some ctx) :
    (h.finishPeer c p).contexts.find? c = some (unlisting ctx q p) := by
  rw [finishPeer_eq hq live]
  refine (Store.find_modify_self _ c _).trans ?_
  refine (congrArg (Option.map _) ((Store.find_modify_self _ c _).trans
    (congrArg (Option.map _) found))).trans ?_
  rfl

theorem context_finished_ne (hq : h.peers.find? p = some q) (live : q.released = false)
    {c' : ContextId} (other : c ≠ c') :
    (h.finishPeer c p).contexts.find? c' = h.contexts.find? c' := by
  rw [finishPeer_eq hq live]
  exact (Store.find_modify_ne _ _ other).trans (Store.find_modify_ne _ _ other)

theorem peers_finished (hq : h.peers.find? p = some q) (live : q.released = false) (c : ContextId) :
    (h.finishPeer c p).peers = h.peers.modify p Peer.emptied := by
  rw [finishPeer_eq hq live]
  rfl

theorem contextOf_finished (hq : h.peers.find? p = some q) (live : q.released = false)
    (c : ContextId) (o : Object) : (h.finishPeer c p).contextOf? o = h.contextOf? o := by
  rw [finishPeer_eq hq live]
  cases o <;> rfl

theorem peerOf_finished (hq : h.peers.find? p = some q) (live : q.released = false)
    (c : ContextId) (o : Object) : (h.finishPeer c p).peerOf? o = h.peerOf? o := by
  rw [finishPeer_eq hq live]
  cases o <;> rfl

theorem peers_unlisting (entry : ctx.registry.peer? q.handle = some p) :
    (unlisting ctx q p).registry.peers = ctx.registry.peers.erase q.handle := by
  refine (accounts_dropContents _ q.backing).1.trans ?_
  have there : ctx.registry.peers.find? q.handle = some p := entry
  unfold Registry.remove
  rw [if_pos there]
  rfl

theorem registered_unlisting :
    (unlisting ctx q p).registry.registered = ctx.registry.registered :=
  (accounts_dropContents _ q.backing).2.2.2.trans (remove_rest ctx.registry q.handle p).2.2

theorem peer_unlisting_of_ne {p' : PeerId} (entry : ctx.registry.peer? k = some p')
    (other : ¬ (k = q.handle ∧ p' = p)) : (unlisting ctx q p).registry.peer? k = some p' := by
  have table := (accounts_dropContents (ctx.registry.remove q.handle p) q.backing).1
  refine (congrArg (fun t => t.find? k) table).trans (peer_remove_iff.mpr ⟨entry, ?_⟩)
  rintro ⟨rfl, there⟩
  exact other ⟨rfl, Option.some.inj (entry.symm.trans there)⟩

theorem Intact.peer_unlisting_iff (I : h.Intact) (found : h.contexts.find? c = some ctx)
    (entry : ctx.registry.peer? q.handle = some p) (hq : h.peers.find? p = some q) {p' : PeerId} :
    (unlisting ctx q p).registry.peer? k = some p' ↔ ctx.registry.peer? k = some p' ∧ p' ≠ p := by
  constructor
  · intro entry'
    rw [Registry.peer?, peers_unlisting entry] at entry'
    have mem := (Table.mem_entries_iff _ k p').mpr entry'
    obtain ⟨old, _, other⟩ := I.ne_of_mem_erase found entry ⟨q, hq⟩ mem
    exact ⟨old, other⟩
  · rintro ⟨entry', other⟩
    exact peer_unlisting_of_ne entry' (fun same => other same.2)

theorem peers_finished_ne (hq : h.peers.find? p = some q) (live : q.released = false) (c : ContextId)
    {p' : PeerId} (other : p' ≠ p) : (h.finishPeer c p).peers.find? p' = h.peers.find? p' := by
  rw [peers_finished hq live]
  exact h.peers.find_modify_ne _ (fun same => other same.symm)

theorem countP_forsaken_finished (I : h.Intact) (A : h.Accounted c ctx 0)
    (found : h.contexts.find? c = some ctx) (entry : ctx.registry.peer? q.handle = some p)
    (hq : h.peers.find? p = some q) (live : q.released = false) :
    (unlisting ctx q p).registry.peers.entries.countP (fun e => (h.finishPeer c p).isForsaken e.2) =
      (ctx.registry.peers.erase q.handle).entries.countP (fun e => h.isForsaken e.2) := by
  rw [peers_unlisting entry]
  refine List.countP_congr (fun e he => ?_)
  obtain ⟨old, _, other⟩ := I.ne_of_mem_erase found entry ⟨q, hq⟩ he
  obtain ⟨q', hq', _⟩ := A.entry e.1 e.2 old
  rw [isForsaken_eq hq', isForsaken_eq ((peers_finished_ne hq live c other).trans hq'),
    contextOf_finished hq live]

theorem finished_accounted (I : h.Intact) (A : h.Accounted c ctx 0)
    (found : h.contexts.find? c = some ctx) (entry : ctx.registry.peer? k = some p)
    (hq : h.peers.find? p = some q) (live : q.released = false) (forsaken : h.isForsaken p = true)
    (unqueued : p ∉ ctx.reclaimer.queue) :
    (h.finishPeer c p).Accounted c (unlisting ctx q p) 0 := by
  have handle : q.handle = k := I.handle_of_entry found entry hq
  subst handle
  have rest : ∀ k' p', (unlisting ctx q p).registry.peer? k' = some p' ↔
      ctx.registry.peer? k' = some p' ∧ p' ≠ p := fun _ _ => I.peer_unlisting_iff found entry hq
  have kept : ∀ p', p' ≠ p → (h.finishPeer c p).peers.find? p' = h.peers.find? p' :=
    fun _ => peers_finished_ne hq live c
  have owner : h.contextOf? q.owner = none := by
    rw [isForsaken_eq hq] at forsaken
    exact Option.isNone_iff_eq_none.mp forsaken
  refine
    { entry := fun k' p' entry' => ?_, own := fun k' p' c' ctx' k'' entry' there entry'' => ?_
      listed := fun o p' q' own pointer hq' => ?_, nodup := A.nodup, waiting := fun p' hp => ?_
      size := ?_, pending := ?_ }
  · obtain ⟨old, other⟩ := (rest k' p').mp entry'
    obtain ⟨q', hq', live', owns⟩ := A.entry k' p' old
    refine ⟨q', (kept p' other).trans hq', live', fun c' own => ?_⟩
    rw [contextOf_finished hq live] at own
    rw [peerOf_finished hq live]
    exact owns c' own
  · by_cases same : c = c'
    · exact same.symm
    · rw [context_finished_ne hq live same] at there
      exact A.own k' p' c' ctx' k'' ((rest k' p').mp entry').1 there entry''
  · rw [contextOf_finished hq live] at own
    rw [peerOf_finished hq live] at pointer
    -- an object that is alive does not have the peer of a dead one
    have other : p' ≠ p := by
      rintro rfl
      obtain ⟨q₀, hq₀, owns, _⟩ := I.peer_of_object pointer
      cases hq.symm.trans hq₀
      rw [owns] at owner
      exact absurd (owner.symm.trans own) (by simp)
    exact (rest _ _).mpr ⟨A.listed o p' q' own pointer ((kept p' other).symm.trans hq'), other⟩
  · obtain ⟨k', old⟩ := A.waiting p' hp
    exact ⟨k', (rest k' p').mpr ⟨old, fun same => unqueued (same ▸ hp)⟩⟩
  · have size := A.size
    have perm := (Assoc.perm_erase ctx.registry.peers.entries q.handle p entry).length_eq
    rw [peers_unlisting entry, registered_unlisting]
    simp only [Table.size, Table.erase, List.length_cons] at size perm ⊢
    change _ + (ctx.reclaimer.released + 1) = _
    omega
  · have pending := A.pending
    rw [countP_entries entry] at pending
    rw [countP_forsaken_finished I A found entry hq live]
    simp only [forsaken, if_true] at pending
    change ctx.reclaimer.pending - 1 + 0 = _
    omega

theorem finishPeer_balanced (I : h.Intact) (B : h.Balanced) (found : h.contexts.find? c = some ctx)
    (entry : ctx.registry.peer? k = some p) (forsaken : h.isForsaken p = true)
    (unqueued : p ∉ ctx.reclaimer.queue) : (h.finishPeer c p).Balanced := by
  have A := B c ctx found
  obtain ⟨q, hq, live, _⟩ := A.entry k p entry
  intro c' ctx' found'
  by_cases same : c = c'
  · subst same
    rw [context_finished hq live found] at found'
    cases found'
    exact finished_accounted I A found entry hq live forsaken unqueued
  · rw [context_finished_ne hq live same] at found'
    have A' := B c' ctx' found'
    have apart : ∀ k' p', ctx'.registry.peer? k' = some p' → p' ≠ p := by
      rintro k' p' entry' rfl
      exact same (A'.own k' p' c ctx k entry' found entry)
    refine A'.carry ⟨fun k' p' q' entry' hq' => ?_, fun k' p' q' _ _ => ?_,
      fun k' p' c'' ctx'' k'' _ there entry' => ?_, fun o p' q' own pointer hq' => ?_⟩ rfl
    · refine ⟨q', ?_, rfl⟩
      rw [peers_finished hq live]
      exact (h.peers.find_modify_ne _ (fun e => apart k' p' entry' e.symm)).trans hq'
    · exact ⟨contextOf_finished hq live c _, fun i pointer =>
        (peerOf_finished hq live c _).trans pointer⟩
    · by_cases same' : c = c''
      · subst same'
        rw [context_finished hq live found] at there
        cases there
        have handle := I.handle_of_entry found entry hq
        subst handle
        rw [Registry.peer?, peers_unlisting entry, Table.find_erase] at entry'
        split at entry'
        · exact absurd entry' (by simp)
        · exact ⟨ctx, found, entry'⟩
      · exact ⟨ctx'', (context_finished_ne hq live same').symm.trans there, entry'⟩
    · rw [contextOf_finished hq live] at own
      rw [peerOf_finished hq live] at pointer
      rw [peers_finished hq live] at hq'
      obtain ⟨q'', hq'', fixed⟩ := exists_of_map_eq
        (h.peers.map_find_modify p p' Peer.emptied Peer.handle (fun _ _ => rfl)) hq'
      exact ⟨q'', own, pointer, hq'', fixed.symm⟩

end

/-! ### Steps of the heap itself -/

theorem Balanced.noting (B : h.Balanced) (panics : List Panic) :
    Balanced { h with panics } := by
  intro c ctx found
  refine (B c ctx found).carry ⟨fun k p q _ hq => ⟨q, hq, rfl⟩, fun k p q _ _ => ?_,
    fun k p c' ctx' k' _ there entry => ⟨ctx', there, entry⟩,
    fun o p q' own pointer hq' => ⟨q', ?_, ?_, hq', rfl⟩⟩ rfl
  · refine ⟨by cases q.owner <;> rfl, fun i pointer => ?_⟩
    cases ho : q.owner <;> rw [ho] at pointer <;> exact pointer
  · cases o <;> exact own
  · cases o <;> exact pointer

/-- Counting a death that is owed settles the accounts. -/
theorem counted_balanced (O : h.Owing c 1) : (h.modifyReclaimer c (·.count)).Balanced :=
  owing_zero.mp (O.modifyReclaimer _ (fun _ _ A => ⟨A.nodup, A.waiting, rfl, rfl⟩))

/-- So does handing in the peer of the object that died, whatever becomes of it. -/
theorem reclaim_balanced (I : h.Intact) (O : h.Owing c 1) (found : h.contexts.find? c = some ctx)
    (entry : ctx.registry.peer? k = some p) (forsaken : h.isForsaken p = true)
    (unqueued : p ∉ ctx.reclaimer.queue) : (h.reclaim c p).Balanced := by
  have counted := counted_balanced O
  have I' : (h.modifyReclaimer c (·.count)).Intact :=
    (modifyReclaimer_sheds I c _ (fun _ _ _ => .inl)).intact I
  have found' : (h.modifyReclaimer c (·.count)).contexts.find? c =
      some { ctx with reclaimer := ctx.reclaimer.count } :=
    (Store.find_modify_self _ c _).trans (by rw [found]; rfl)
  have forsaken' : (h.modifyReclaimer c (·.count)).isForsaken p = true := by
    obtain ⟨q, hq, _⟩ := (O c ctx found).entry k p entry
    rw [isForsaken_eq hq] at forsaken
    rw [isForsaken_eq (h := h.modifyReclaimer c (·.count)) hq, ← forsaken]
    cases q.owner <;> rfl
  rcases reclaim_cases h c p with ⟨running, queued⟩ | direct | ⟨panic, refused⟩
  · rw [queued, ← owing_zero (c := c)]
    refine (owing_zero.mpr counted).modifyReclaimer _ (fun ctx' there A => ?_)
    cases found'.symm.trans there
    refine ⟨?_, fun i hi => ?_, rfl, rfl⟩
    · refine List.nodup_append.mpr ⟨A.nodup, List.nodup_cons.mpr ⟨List.not_mem_nil, .nil⟩,
        fun i hi j hj same => ?_⟩
      cases List.mem_singleton.mp hj
      exact unqueued (same ▸ hi)
    · rcases List.mem_append.mp hi with old | new
      · exact A.waiting i old
      · cases List.mem_singleton.mp new
        exact ⟨k, entry⟩
  · rw [direct]
    exact finishPeer_balanced I' counted found' entry forsaken' unqueued
  · rw [refused]
    exact counted.noting _

theorem without_balanced (B : h.Balanced) (unheld : r ∉ h.refs)
    (apart : ∀ o c ctx, r = .ofObject o → h.contexts.find? c = some ctx →
      h.contextOf? o = some c → h.peerOf? o = none) : (h.without r).Balanced := by
  intro c ctx found'
  have found := (find_without h r).2.2.2.1 c ctx found'
  have A := B c ctx found
  exact A.carry (without_carries A found unheld (fun o gone own => apart o c ctx gone found own)) rfl

theorem without_owing (I : h.Intact) (B : h.Balanced) {o : Object} (unheld : Ref.ofObject o ∉ h.refs)
    (found : h.contexts.find? c = some ctx) (own : h.contextOf? o = some c)
    (pointer : h.peerOf? o = some p) : (h.without (.ofObject o)).Owing c 1 := by
  intro c' ctx' found'
  rw [contexts_without] at found'
  by_cases same : c = c'
  · subst same
    cases found.symm.trans found'
    rw [if_pos rfl]
    exact without_accounted I (B c ctx found) found own pointer unheld
  · rw [if_neg same]
    have A' := B c' ctx' found'
    refine A'.carry (without_carries A' found' unheld (fun o' gone' own' => ?_)) rfl
    have same' : o = o' := by cases o <;> cases o' <;> cases gone' <;> rfl
    subst same'
    exact absurd (Option.some.inj (own.symm.trans own')) same

theorem reclaim_without_balanced (I : h.Intact) (B : h.Balanced) {o : Object}
    (unheld : Ref.ofObject o ∉ h.refs) (found : h.contexts.find? c = some ctx)
    (own : h.contextOf? o = some c) (pointer : h.peerOf? o = some p) :
    ((h.without (.ofObject o)).reclaim c p).Balanced := by
  obtain ⟨q, hq, owner, _⟩ := I.peer_of_object pointer
  have entry := (B c ctx found).listed o p q own pointer hq
  have forsaken : (h.without (.ofObject o)).isForsaken p = true := by
    rw [isForsaken_eq ((find_peer_without unheld (listed_held found entry)).trans hq), owner,
      contextOf_without_self]
    rfl
  have unqueued : p ∉ ctx.reclaimer.queue := fun queued => by
    have dead := (I.contexts c ctx found).queued p q queued hq
    rw [owner, alive_of_peerOf pointer] at dead
    exact absurd dead (by decide)
  exact reclaim_balanced ((without_sheds I unheld).intact I) (without_owing I B unheld found own pointer)
    ((contexts_without o).symm ▸ found) entry forsaken unqueued

theorem bury_balanced (I : h.Intact) (B : h.Balanced) (unheld : r ∉ h.refs) :
    (h.bury r).Balanced := by
  rcases bury_cases I r with ⟨plain, apart⟩ | ⟨o, c, p, rfl, own, there, pointer, handed⟩
  · rw [plain]
    exact without_balanced B unheld (fun o c ctx gone found own =>
      apart o c gone own (has_context_iff.mpr ⟨ctx, found⟩))
  · obtain ⟨ctx, found⟩ := has_context_iff.mp there
    rw [handed]
    exact reclaim_without_balanced I B unheld found own pointer

theorem dequeued_balanced (B : h.Balanced) (found : h.contexts.find? c = some ctx)
    {rest : List PeerId} (queue : ctx.reclaimer.queue = p :: rest) :
    p ∉ rest ∧
      (h.modifyReclaimer c (fun _ => { ctx.reclaimer with queue := rest })).Balanced := by
  have A := B c ctx found
  have nodup := A.nodup
  rw [queue] at nodup
  obtain ⟨unqueued, nodup⟩ := List.nodup_cons.mp nodup
  refine ⟨unqueued, owing_zero.mp ((owing_zero.mpr B).modifyReclaimer _ (fun ctx' there _ => ?_))⟩
  cases found.symm.trans there
  exact ⟨nodup, fun i hi => A.waiting i (queue ▸ List.mem_cons_of_mem p hi), rfl, rfl⟩

theorem work_balanced (I : h.Intact) (B : h.Balanced) (c : ContextId) : (h.work c).Balanced := by
  rcases work_cases h c with idle | ⟨ctx, p, rest, found, queue, run⟩
  · rw [idle]
    exact B
  · let h₁ := h.modifyReclaimer c (fun _ => { ctx.reclaimer with queue := rest })
    obtain ⟨unqueued, B₁⟩ := dequeued_balanced B found queue
    have waiting : p ∈ ctx.reclaimer.queue := queue ▸ List.mem_cons_self
    obtain ⟨k, entry⟩ := (B c ctx found).waiting p waiting
    obtain ⟨q, hq, _⟩ := (B c ctx found).entry k p entry
    have I₁ : h₁.Intact := (dequeued_sheds I found queue).intact I
    have found₁ : h₁.contexts.find? c =
        some { ctx with reclaimer := { ctx.reclaimer with queue := rest } } :=
      (Store.find_modify_self _ c _).trans (by rw [found]; rfl)
    have forsaken : h₁.isForsaken p = true := by
      have dead := (I.contexts c ctx found).queued p q waiting hq
      rw [isForsaken_eq (h := h₁) hq, Option.isNone_iff_eq_none]
      cases own : h₁.contextOf? q.owner with
      | none => rfl
      | some c' =>
        have alive : h.isAlive q.owner = true := by
          refine isAlive_iff_contextOf.mpr ⟨c', ?_⟩
          rw [← own]
          cases q.owner <;> rfl
        exact absurd (alive.symm.trans dead) (by decide)
    rw [run]
    exact finishPeer_balanced I₁ B₁ found₁ entry forsaken unqueued

theorem shutdown_balanced (B : h.Balanced) (c : ContextId) : (h.shutdown c).Balanced := by
  rw [← owing_zero (c := c)]
  exact (owing_zero.mpr B).modifyReclaimer _ (fun _ _ A => ⟨A.nodup, A.waiting, rfl, rfl⟩)

end Heap
end VectorHeap
