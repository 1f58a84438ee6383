import VectorHeap.Proofs.Heap.Clearing
import VectorHeap.Proofs.Lookup

/-! Peers that something refers to: they are there, after every posting. -/
namespace VectorHeap.Heap

variable {T : VectorId → Backing → Prop} {P : ContextId → PeerId → Prop} {h h' : Heap} {c : ContextId}
  {o : Object} {p : PeerId}

inductive Noted (h : Heap) (p : PeerId) : Prop
  | pointer (o : Object) (pointer : h.peerOf? o = some p)
  | entry (c : ContextId) (ctx : Context) (k : Handle) (found : h.contexts.find? c = some ctx)
      (entry : ctx.registry.peer? k = some p)
  | queued (c : ContextId) (ctx : Context) (found : h.contexts.find? c = some ctx)
      (queued : p ∈ ctx.reclaimer.queue)

/-- Peers that something refers to are there. -/
def Grounded (h : Heap) : Prop := ∀ p, h.Noted p → ∃ q, h.peers.find? p = some q

theorem Noted.held (N : h.Noted p) : .peer p ∈ h.refs := by
  cases N with
  | pointer o pointer => exact peerOf_held pointer
  | entry c ctx k found entry => exact listed_held found entry
  | queued c ctx found queued =>
    exact mem_refs_iff.mpr (.inr (.inr (.inr (.inl ⟨c, ctx, found,
      mem_context_refs.mpr (.inr (.inr ⟨p, queued, rfl⟩))⟩))))

theorem Intact.grounded (I : h.Intact) : h.Grounded :=
  fun _ N => has_peer_iff.mp (I.has_of_mem_refs N.held)

theorem Grounded.ne_fresh (G : h.Grounded) (N : h.Noted p) : p ≠ h.peers.fresh := by
  obtain ⟨q, hq⟩ := G p N
  exact ne_fresh_of_find hq

theorem Grounded.carry (G : h.Grounded)
    (peers : ∀ p q, h.peers.find? p = some q → ∃ q', h'.peers.find? p = some q')
    (back : ∀ p, h'.Noted p → h.Noted p) : h'.Grounded := fun p N => by
  obtain ⟨q, hq⟩ := G p (back p N)
  exact peers p q hq

theorem noted_of_same (pointers : ∀ o p, h'.peerOf? o = some p → h.peerOf? o = some p)
    (contexts : ∀ c ctx', h'.contexts.find? c = some ctx' →
      (∃ k p, ctx'.registry.peer? k = some p) ∨ (∃ p, p ∈ ctx'.reclaimer.queue) →
      ∃ ctx, h.contexts.find? c = some ctx ∧
        (∀ k p, ctx'.registry.peer? k = some p → ctx.registry.peer? k = some p) ∧
        ∀ p ∈ ctx'.reclaimer.queue, p ∈ ctx.reclaimer.queue) (p : PeerId) (N : h'.Noted p) :
    h.Noted p := by
  cases N with
  | pointer o pointer => exact .pointer o (pointers o p pointer)
  | entry c ctx' k found' entry =>
    obtain ⟨ctx, found, entries, _⟩ := contexts c ctx' found' (.inl ⟨k, p, entry⟩)
    exact .entry c ctx k found (entries k p entry)
  | queued c ctx' found' queued =>
    obtain ⟨ctx, found, _, queue⟩ := contexts c ctx' found' (.inr ⟨p, queued⟩)
    exact .queued c ctx found (queue p queued)

theorem noted_modifyContext {i : ContextId} {f : Context → Context}
    (entries : ∀ ctx k, (f ctx).registry.peer? k = ctx.registry.peer? k)
    (queue : ∀ ctx, (f ctx).reclaimer.queue = ctx.reclaimer.queue) (c : ContextId) (ctx' : Context)
    (found' : (h.modifyContext i f).contexts.find? c = some ctx') :
    ∃ ctx, h.contexts.find? c = some ctx ∧
      (∀ k p, ctx'.registry.peer? k = some p → ctx.registry.peer? k = some p) ∧
      ∀ p ∈ ctx'.reclaimer.queue, p ∈ ctx.reclaimer.queue := by
  by_cases this : i = c
  · subst this
    obtain ⟨ctx, found, rfl⟩ := Option.map_eq_some_iff.mp ((Store.find_modify_self ..).symm.trans found')
    exact ⟨ctx, found, fun k p entry => (entries ctx k).symm.trans entry, fun p hp => queue ctx ▸ hp⟩
  · exact ⟨ctx', (Store.find_modify_ne _ _ this).symm.trans found', fun _ _ => id, fun _ => id⟩

theorem peer_rebacked (r : Registry) (b b' : Backing) (k k' : Handle) :
    ((r.dropContents b).addContents k b').peer? k' = r.peer? k' := by
  have table := (accounts_addContents (r.dropContents b) k b').1.trans (accounts_dropContents r b).1
  exact congrArg (fun t => t.find? k') table

theorem Grounded.listed (G : h.Grounded) {i : ContextId} {ctx₀ : Context} {o : Object} (site : String)
    (found : h.contexts.find? i = some ctx₀) (own : h.contextOf? o = some i) :
    (h.listed i ctx₀.registry.nextHandle o site).Grounded := by
  have alive : h.isAlive o = true := isAlive_iff_contextOf.mpr ⟨i, own⟩
  intro p N
  by_cases new : p = h.peers.fresh
  · exact new ▸ ⟨_, find_listed_fresh⟩
  · refine (G p ?_).imp (fun q hq => find_listed_of_find hq)
    cases N with
    | pointer o' pointer =>
      rw [peerOf_listed alive] at pointer
      split at pointer
      · exact absurd (Option.some.inj pointer).symm new
      · exact .pointer o' pointer
    | entry d ctx' k found' entry =>
      by_cases this : i = d
      · subst this
        cases (context_listed found).symm.trans found'
        rcases peer_listing.mp entry with ⟨_, fresh⟩ | ⟨_, old⟩
        · exact absurd fresh new
        · exact .entry i ctx₀ k found old
      · exact .entry d ctx' k ((context_listed_ne this).symm.trans found') entry
    | queued d ctx' found' queued =>
      by_cases this : i = d
      · subst this
        cases (context_listed found).symm.trans found'
        exact .queued i ctx₀ found queued
      · exact .queued d ctx' ((context_listed_ne this).symm.trans found') queued

theorem Posting.grounded (posting : Posting T h h') (G : h.Grounded) : h'.Grounded := by
  cases posting with
  | quiet Q =>
    refine G.carry (fun p q hq => ?_) (noted_of_same (fun o p pointer => ?_) (fun c ctx' found' _ => ?_))
    · obtain ⟨q', hq', _⟩ := exists_of_map_eq (Q.peers p).symm hq
      exact ⟨q', hq'⟩
    · exact (Q.pointers o).symm.trans pointer
    · obtain ⟨ctx, found, same⟩ := exists_of_map_eq (Q.contexts c) found'
      have registry : ctx'.registry = ctx.registry := congrArg (·.2.1) same
      have reclaimer : ctx'.reclaimer = ctx.reclaimer := congrArg (·.2.2.1) same
      exact ⟨ctx, found, fun k p entry => registry ▸ entry, fun p hp => reclaimer ▸ hp⟩
  | context config unclaimed =>
    refine G.carry (fun p q hq => ⟨q, hq⟩) (noted_of_same (fun o p pointer => ?_)
      (fun c ctx' found' some => ?_))
    · cases o <;> exact pointer
    · rcases Store.eq_or_find_of_find_add found' with ⟨_, rfl⟩ | old
      · rcases some with ⟨k, p, entry⟩ | ⟨p, hp⟩
        · exact absurd ((peer_ofConfig config k).symm.trans entry) (by simp)
        · exact absurd hp (by simp [Context.ofConfig])
      · exact ⟨ctx', old, fun _ _ => id, fun _ => id⟩
  | buffer foreign n nonzero free =>
    refine G.carry (fun p q hq => ⟨q, hq⟩) (noted_of_same (fun o p pointer => ?_)
      (fun c ctx' found' _ => ⟨ctx', found', fun _ _ => id, fun _ => id⟩))
    cases o <;> exact pointer
  | sentinel c ctx address n found none nonzero free =>
    refine G.carry (fun p q hq => ⟨q, hq⟩) (noted_of_same (fun o p pointer => ?_)
      (fun i ctx' found' _ => noted_modifyContext (h := h)
        (f := fun ctx => { ctx with sentinel := some address }) (fun _ _ => rfl) (fun _ => rfl) i ctx'
        found'))
    cases o <;> exact pointer
  | listed i ctx₀ o site found own bare free => exact G.listed site found own
  | backed i o p q b own pointer found offered allowed =>
    refine G.carry (fun p' q' hq' => ?_) (noted_of_same (fun o p pointer => ?_)
      (fun c ctx' found' _ => noted_modifyContext (h := h)
        (f := fun ctx => { ctx with
          registry := (ctx.registry.dropContents q.backing).addContents q.handle b })
        (fun ctx k => peer_rebacked ..) (fun _ => rfl) c ctx' found'))
    · obtain ⟨q'', hq'', _⟩ := exists_of_map_eq ((h.peers.map_find_modify p p' _ (fun _ => ())
        (fun _ _ => rfl)).symm) hq'
      exact ⟨q'', hq''⟩
    · cases o <;> exact pointer

end VectorHeap.Heap
