import VectorHeap.Proofs.Overlap
import VectorHeap.Proofs.Postings

/-! What the debugging tables of a context are worth while peers are released beside the calls: outside
of the gaps that the releases under way make they follow what the context lists, as long as no release
is overtaken. -/
namespace VectorHeap

namespace Heap

variable {T : VectorId → Backing → Prop} {h h' h'' h₀ : Heap} {c : ContextId} {ctx : Context} {p : PeerId}
  {held held' : PeerId → Prop}

/-! ### Peers that no object has -/

/-- Peers stay, new ones are not released, and those that no object has are left where they lie. -/
structure Skirts (h h' : Heap) : Prop where
  stays : ∀ p q, h.peers.find? p = some q → ∃ q', h'.peers.find? p = some q'
  comes : ∀ p q', h'.peers.find? p = some q' → q'.released = true →
    ∃ q, h.peers.find? p = some q ∧ q.released = true
  parted : ∀ p q, h.peers.find? p = some q → (∀ o, h.peerOf? o ≠ some p) →
    (∀ o, h'.peerOf? o ≠ some p) ∧ h'.address? (.block p) = h.address? (.block p)

theorem Skirts.refl (h : Heap) : h.Skirts h where
  stays _ q found := ⟨q, found⟩
  comes _ q' found released := ⟨q', found, released⟩
  parted _ _ _ unpointed := ⟨unpointed, rfl⟩

theorem Skirts.trans (S : h.Skirts h') (S' : h'.Skirts h'') : h.Skirts h'' where
  stays p q found := by
    obtain ⟨q', found'⟩ := S.stays p q found
    exact S'.stays p q' found'
  comes p q'' found'' released'' := by
    obtain ⟨q', found', released'⟩ := S'.comes p q'' found'' released''
    exact S.comes p q' found' released'
  parted p q found unpointed := by
    obtain ⟨q', found'⟩ := S.stays p q found
    obtain ⟨unpointed', address⟩ := S.parted p q found unpointed
    obtain ⟨unpointed'', address'⟩ := S'.parted p q' found' unpointed'
    exact ⟨unpointed'', address'.trans address⟩

theorem Skirts.of_same (peers : h'.peers = h.peers) (pointers : ∀ o, h'.peerOf? o = h.peerOf? o) :
    h.Skirts h' where
  stays _ q found := ⟨q, peers ▸ found⟩
  comes _ q' found released := ⟨q', peers ▸ found, released⟩
  parted p _ _ unpointed := ⟨fun o => pointers o ▸ unpointed o, by rw [address?, peers, address?]⟩

theorem Quiet.skirts (Q : h.Quiet h') : h.Skirts h' where
  stays p q found := (exists_of_map_eq (Q.peers p).symm found).imp (fun _ => And.left)
  comes p q' found released := by
    obtain ⟨q, hq, same⟩ := exists_of_map_eq (Q.peers p) found
    exact ⟨q, hq, (congrArg (·.2.2.1) same).symm.trans released⟩
  parted p _ _ unpointed := ⟨fun o => Q.pointers o ▸ unpointed o, Q.address _⟩

theorem comes_added {i : PeerId} {q₀ q' : Peer} (live : q₀.released = false)
    (found : (h.peers.add q₀).find? i = some q') (released : q'.released = true) :
    ∃ q, h.peers.find? i = some q ∧ q.released = true := by
  rcases Store.eq_or_find_of_find_add found with ⟨_, rfl⟩ | old
  · exact absurd (live.symm.trans released) (by decide)
  · exact ⟨q', old, released⟩

theorem Posting.skirts (posting : Posting T h h') : h.Skirts h' := by
  cases posting with
  | quiet Q => exact Q.skirts
  | context config unclaimed => exact .of_same rfl (fun o => by cases o <;> rfl)
  | buffer foreign n nonzero free => exact .of_same rfl (fun o => by cases o <;> rfl)
  | sentinel i ctx₀ address n found₀ none nonzero free => exact .of_same rfl (fun o => by cases o <;> rfl)
  | listed i ctx₀ o site found₀ own bare free =>
    refine ⟨fun p q found => ⟨q, find_listed_of_find found⟩, fun p q' found released => ?_,
      fun p q found unpointed => ⟨fun o' => ?_, address_listed ..⟩⟩
    · rw [peers_listed] at found
      exact comes_added rfl found released
    · rw [peerOf_listed (isAlive_iff_contextOf.mpr ⟨i, own⟩)]
      split
      · exact fun same => ne_fresh_of_find found (Option.some.inj same).symm
      · exact unpointed o'
  | backed i o p₀ q₀ b own pointer hq offered allowed =>
    have kept : ∀ j, ((h.rebacked i p₀ q₀ b).peers.find? j).map (·.released) =
        (h.peers.find? j).map (·.released) :=
      fun j => h.peers.map_find_modify p₀ j _ _ (fun _ _ => rfl)
    refine ⟨fun p q found => ?_, fun p q' found released => ?_, fun p q found unpointed => ⟨fun o' => ?_, ?_⟩⟩
    · exact (exists_of_map_eq (kept p).symm found).imp (fun _ => And.left)
    · obtain ⟨q, hq, same⟩ := exists_of_map_eq (kept p) found
      exact ⟨q, hq, same.symm.trans released⟩
    · exact fun same => unpointed o' (by cases o' <;> exact same)
    · have other : Occupant.block p ≠ .block p₀ := by
        rintro ⟨⟩
        exact unpointed o pointer
      exact (address_modifyPeer_ne _ _ other).trans (address_modifyRegistry h i _ _)

theorem Refusal.skirts {f : Fault} (R : h.Refusal f h') : h.Skirts h' := by
  induction R with
  | entered h c₀ ctx₀ o site found issued =>
    refine ⟨fun p q hq => ⟨q, Store.find_add_of_find _ hq⟩, fun p q' hq' => comes_added rfl hq',
      fun p q hq unpointed => ⟨fun o' pointer => unpointed o' (by cases o' <;> exact pointer), ?_⟩⟩
    have same : (h.entered c₀ ctx₀.registry.nextHandle o site).peers.find? p = some q :=
      Store.find_add_of_find _ hq
    rw [address?, same, address?, hq]
  | discarded h h' cell rest ih => exact (Quiet.discarded h cell).skirts.trans ih

theorem Posted.skirts (posted : Posted T h h') : h.Skirts h' :=
  posted.carry (.refl h) (fun _ last S => S.trans last.skirts)

/-! ### Flags -/

/-- No object has a released peer, and one that lies somewhere is held. -/
def Flagged (h : Heap) (held : PeerId → Prop) : Prop :=
  ∀ p q, h.peers.find? p = some q → q.released = true →
    (∀ o, h.peerOf? o ≠ some p) ∧ ∀ a, h.address? (.block p) = some a → held p

theorem Skirts.flagged (S : h.Skirts h') (F : h.Flagged held) : h'.Flagged held := by
  intro p q' found released
  obtain ⟨q, hq, before⟩ := S.comes p q' found released
  obtain ⟨unpointed, holds⟩ := F p q hq before
  obtain ⟨unpointed', address⟩ := S.parted p q hq unpointed
  exact ⟨unpointed', fun a there => holds a (address ▸ there)⟩

theorem Sheds.address (S : h.Sheds h') {x : Occupant} {a : Address} (there : h'.address? x = some a) :
    h.address? x = some a := by
  cases x with
  | block p =>
    obtain ⟨q', hq', lies⟩ := Option.bind_eq_some_iff.mp there
    obtain ⟨q, hq, same⟩ := S.peers p q' hq'
    refine Option.bind_eq_some_iff.mpr ⟨q, hq, ?_⟩
    rcases same with rfl | ⟨fades, _⟩
    · exact lies
    · rcases fades.backing with same | gone
      · exact same ▸ lies
      · exact absurd lies (by simp [gone, Backing.owned?])
  | sentinel i =>
    obtain ⟨ctx', found', made⟩ := Option.bind_eq_some_iff.mp there
    obtain ⟨ctx, found, sentinel, _⟩ := S.contexts i ctx' found'
    exact Option.bind_eq_some_iff.mpr ⟨ctx, found, sentinel ▸ made⟩
  | buffer b =>
    rw [address?, S.buffers] at there
    exact there

theorem Sheds.spaced (S : h.Sheds h') (A : h.Spaced) : h'.Spaced := A.stay (fun _ _ => S.address)

theorem Sheds.peer_back (S : h.Sheds h') {o : Object} (pointer : h'.peerOf? o = some p) :
    h.peerOf? o = some p :=
  (S.peerOf (alive_of_peerOf pointer)).symm.trans pointer

theorem Sheds.flagged (S : h.Sheds h') (F : h.Flagged held)
    (marks : ∀ p q q', h.peers.find? p = some q → h'.peers.find? p = some q' → q'.released = true →
      q.released = true ∨ (∀ o, h.peerOf? o ≠ some p) ∧ held' p)
    (holds : ∀ p a, held p → h'.address? (.block p) = some a → held' p) : h'.Flagged held' := by
  intro p q' found released
  obtain ⟨q, hq, _⟩ := S.peers p q' found
  rcases marks p q q' hq found released with before | ⟨unpointed, now⟩
  · obtain ⟨unpointed, old⟩ := F p q hq before
    exact ⟨fun o pointer => unpointed o (S.peer_back pointer),
      fun a there => holds p a (old a (S.address there)) there⟩
  · exact ⟨fun o pointer => unpointed o (S.peer_back pointer), fun _ _ => now⟩

/-! ### Calls -/

/-- What a call comes to: postings, and perhaps a registration that another context refuses. -/
theorem ran_posted {call : Call} (I : h.Intact) (ran : call.Ran c h h') : ∃ h₁, Posted (call.moves h) h h₁ ∧
    (h' = h₁ ∨ ∃ f, h₁.Refusal f h' ∧ h'.LastElsewhere c) := by
  rcases ran with run | ⟨f, run, expected⟩
  · exact ⟨h', ((call.posts I).ok run).1, .inl rfl⟩
  · rcases (call.posts I).error run with posted | ⟨twice, h₁, posted, refused⟩
    · exact ⟨h', posted, .inl rfl⟩
    · exact ⟨h₁, posted, .inr ⟨f, refused, expected twice⟩⟩

theorem ran_skirts {call : Call} (I : h.Intact) (ran : call.Ran c h h') : h.Skirts h' := by
  obtain ⟨h₁, posted, rfl | ⟨f, refused, _⟩⟩ := ran_posted I ran
  · exact posted.skirts
  · exact posted.skirts.trans refused.skirts

theorem ran_spaced {call : Call} (I : h.Intact) (ran : call.Ran c h h') (A : h.Spaced) : h'.Spaced := by
  obtain ⟨h₁, posted, rfl | ⟨f, refused, _⟩⟩ := ran_posted I ran
  · exact posted.spaced A
  · exact refused.spaced (posted.spaced A)

theorem ran_tabledIn {call : Call} {gaps : Gaps} (I : h.Intact) (ran : call.Ran c h h') (A : h.Spaced)
    (t : h.TabledIn gaps c) : h'.TabledIn gaps c := by
  have all : ∀ h₁, Posted (call.moves h) h h₁ → h₁.TabledIn gaps c ∧ h₁.Spaced ∧ h₁.Grounded :=
    fun h₁ posted => posted.carry (P := fun g => g.TabledIn gaps c ∧ g.Spaced ∧ g.Grounded)
      ⟨t, A, I.grounded⟩
      (fun _ last ⟨t, A, G⟩ => ⟨last.tabledIn G A t, last.spaced A, last.grounded G⟩)
  obtain ⟨h₁, posted, rfl | ⟨f, refused, elsewhere⟩⟩ := ran_posted I ran
  · exact (all h' posted).1
  · obtain ⟨t, _, G⟩ := all h₁ posted
    exact refused.tabledIn elsewhere G t

theorem ran_step {call : Call} (ok : call.Admissible h) (ran : call.Ran c h h') :
    Step (DistinctIn c h') h h' := by
  rcases ran with run | ⟨f, run, expected⟩
  · exact .answer call ok run
  · exact .stop call f ok run expected

theorem ran_entries {call : Call} (I : h.Intact) (ok : call.Admissible h) (ran : call.Ran c h h') :
    ∃ h₁, h.Lists h₁ ∧ h'.contexts.find? c = h₁.contexts.find? c := by
  rcases ran with run | ⟨f, run, expected⟩
  · exact ⟨h', (((call.ends I ok).ok run).history I).2, rfl⟩
  · rcases (call.ends I ok).error run with ⟨_, A⟩ | ⟨twice, h₁, M, R⟩
    · exact ⟨h', (A.history I).2, rfl⟩
    · exact ⟨h₁, (M.history I).2, R.same_context (expected twice)⟩

theorem ran_listsIn {call : Call} (I : h.Intact) (ok : call.Admissible h) (ran : call.Ran c h h')
    (there : h.has (.peer p) = true) (lists : h'.ListsIn c p) : h.ListsIn c p := by
  obtain ⟨h₁, L, same⟩ := ran_entries I ok ran
  obtain ⟨ctx', k, found', entry⟩ := lists
  rcases L.new c ctx' k p (same ▸ found') entry with ⟨ctx, found, old⟩ | late
  · exact ⟨ctx, k, found, old⟩
  · obtain ⟨q, hq⟩ := has_peer_iff.mp there
    exact absurd (Store.lt_next_of_find _ p q hq) (Nat.not_lt.mpr late)

theorem has_modifyPeer (h : Heap) (i : PeerId) (f : Peer → Peer) :
    (h.modifyPeer i f).has (.peer p) = h.has (.peer p) :=
  isSome_eq_of_map_eq (h.peers.map_find_modify i p f (fun _ => ()) (fun _ _ => rfl))

theorem released_of_modifyPeer {i : PeerId} {f : Peer → Peer} (same : ∀ q, (f q).released = q.released)
    {q q' : Peer} (hq : h.peers.find? p = some q) (hq' : (h.modifyPeer i f).peers.find? p = some q')
    (released : q'.released = true) : q.released = true := by
  obtain ⟨q₀, hq₀, before⟩ := exists_of_map_eq
    (h.peers.map_find_modify i p f (·.released) (fun q _ => same q)) hq'
  cases hq.symm.trans hq₀
  exact before.symm.trans released

theorem modifyRegistry_sheds (I : h.Intact) (d : ContextId) {r : Registry → Registry}
    (counters : ∀ g, (r g).counter = g.counter ∧ (r g).stride = g.stride)
    (entries : ∀ g k i, (r g).peer? k = some i → g.peer? k = some i) : h.Sheds (h.modifyRegistry d r) :=
  sheds_of_context I d _ (fun ctx => ⟨rfl, rfl, rfl, (counters ctx.registry).1, (counters ctx.registry).2⟩)
    (fun ctx => entries ctx.registry) (fun _ _ _ => .inl)

theorem peer_of_delist {g : Registry} {k k' : Handle} {i : PeerId} (listed : (g.delist k).peer? k' = some i) :
    k ≠ k' ∧ g.peer? k' = some i := by
  rw [Registry.peer_delist] at listed
  split at listed
  · exact absurd listed (by simp)
  · rename_i other
    exact ⟨other, listed⟩

section
variable (I : h.Intact) (d : ContextId)
include I

theorem delist_sheds (k : Handle) : h.Sheds (h.modifyRegistry d (·.delist k)) :=
  modifyRegistry_sheds I d (fun _ => ⟨rfl, rfl⟩) (fun _ _ _ listed => (peer_of_delist listed).2)

theorem forgetSite_sheds (k : Handle) : h.Sheds (h.modifyRegistry d (·.forgetSite k)) :=
  modifyRegistry_sheds I d (fun _ => ⟨rfl, rfl⟩) (fun _ _ _ => id)

theorem unindex_sheds (b : Backing) : h.Sheds (h.modifyRegistry d (·.unindex b)) :=
  modifyRegistry_sheds I d (fun _ => by cases b <;> exact ⟨rfl, rfl⟩)
    (fun _ _ _ listed => by cases b <;> exact listed)

theorem noteFreed_sheds (b : Backing) : h.Sheds (h.modifyRegistry d (·.noteFreed b)) :=
  modifyRegistry_sheds I d (fun _ => ⟨rfl, rfl⟩) (fun _ _ _ => id)

end

theorem Sheds.listsIn (S : h.Sheds h') (lists : h'.ListsIn c p) : h.ListsIn c p := by
  obtain ⟨ctx', k, found', entry⟩ := lists
  obtain ⟨ctx, found, _, _, _, _, _, entries, _⟩ := S.contexts c ctx' found'
  exact ⟨ctx, k, found, entries k p entry⟩

end Heap

namespace Overlap

open Heap

variable {h h' h₀ : Heap} {c : ContextId} {ctx : Context} {r : Release} {rs before after : List Release}
  {s s' : Scene} {past : List Heap}

/-! ### Releases under way -/

def Stage.isDelisted : Stage → Bool
  | .delisted _ | .struck => true
  | _ => false

/-- A release makes no gap before it marks the peer, nor after its block is off the index. -/
def Stage.settled : Stage → Bool
  | .left | .taken | .unindexed _ | .noted | .ended _ => true
  | _ => false

/-- The peer of a release is there and nothing alive owns it. With another context it is not one that
this context lists, and from some step on this context does not list it in any case. -/
structure Release.Sound (h : Heap) (c : ContextId) (r : Release) : Prop where
  there : h.has (.peer r.peer) = true
  ownerless : h.Ownerless r.peer
  own : r.context = c ∨ ¬ h.ListsIn c r.peer
  marked : r.stage.holds = true → ∀ q, h.peers.find? r.peer = some q → q.released = true
  delisted : r.stage.isDelisted = true → ¬ h.ListsIn c r.peer

theorem Stage.not_holds_of_settled {stage : Stage} (settled : stage.settled = true) : stage.holds ≠ true :=
  fun held => by cases stage <;> cases held <;> cases settled

theorem Stage.not_isDelisted_of_settled {stage : Stage} (settled : stage.settled = true) :
    stage.isDelisted ≠ true :=
  fun off => by cases stage <;> cases off <;> cases settled

theorem sound_settled (settled : r.stage.settled = true) (there : h.has (.peer r.peer) = true)
    (ownerless : h.Ownerless r.peer) (own : h.ListsIn c r.peer → r.context = c) : r.Sound h c where
  there := there
  ownerless := ownerless
  own := by
    by_cases lists : h.ListsIn c r.peer
    · exact .inl (own lists)
    · exact .inr lists
  marked held := absurd held (Stage.not_holds_of_settled settled)
  delisted off := absurd off (Stage.not_isDelisted_of_settled settled)

theorem Release.Sound.on (S : r.Sound h c) (stage : Stage)
    (marked : stage.holds = true → ∀ q, h.peers.find? r.peer = some q → q.released = true)
    (delisted : stage.isDelisted = true → ¬ h.ListsIn c r.peer) : { r with stage }.Sound h c :=
  ⟨S.there, S.ownerless, S.own, marked, delisted⟩

theorem Release.Sound.carry (S : r.Sound h c) (I : h.Intact) (F : h.Follows h')
    (there : h'.has (.peer r.peer) = true) (lists : h'.ListsIn c r.peer → h.ListsIn c r.peer) :
    r.Sound h' c := by
  obtain ⟨q, hq⟩ := has_peer_iff.mp S.there
  have old := Store.lt_next_of_find _ _ q hq
  refine ⟨there, fun q' hq' => ?_, S.own.imp_right (fun unlisted => unlisted ∘ lists),
    fun holds q' hq' => ?_, fun off => S.delisted off ∘ lists⟩
  · obtain ⟨q₀, hq₀, owner, _⟩ := F.peer _ q' old hq'
    rw [owner]
    refine Bool.eq_false_iff.mpr (fun alive => ?_)
    exact absurd ((F.object _ (I.peers _ q₀ hq₀).issued alive).symm.trans (S.ownerless q₀ hq₀)) (by decide)
  · obtain ⟨q₀, hq₀, _, final⟩ := F.peer _ q' old hq'
    exact final (S.marked holds q₀ hq₀)

/-- What a release is at next. Only one that finds its peer unmarked marks it. -/
structure Release.Onward (r r' : Release) (h h' : Heap) (c : ContextId) : Prop where
  peer : r'.peer = r.peer
  marks : r'.stage.holds = true → r.stage.holds = true ∨
    ∃ q, h.peers.find? r.peer = some q ∧ q.released = false
  sound : r'.Sound h' c

theorem Release.Sound.onward {r' : Release} (S : r.Sound h' c) (context : r'.context = r.context)
    (peer : r'.peer = r.peer) (settled : r'.stage.settled = true) : r.Onward r' h h' c := by
  refine ⟨peer, fun held => absurd held (Stage.not_holds_of_settled settled), ?_⟩
  refine sound_settled settled (peer ▸ S.there) (peer ▸ S.ownerless) (fun lists => ?_)
  rw [context]
  exact S.own.resolve_right (fun unlisted => unlisted (peer ▸ lists))

namespace Scene

/-- A release under way has marked the peer, and has yet to free its block. -/
def Holds (s : Scene) (p : PeerId) : Prop := ∃ r ∈ s.underWay, r.peer = p ∧ r.stage.holds = true

/-- At most one of two releases of a peer marks it. -/
def Apart (r r' : Release) : Prop := r.stage.holds = true → r'.stage.holds = true → r.peer ≠ r'.peer

/-- What lies somewhere lies apart, the tables of the context are right outside their gaps, and of a
released peer with a block one release is under way. -/
structure Charted (s : Scene) (c : ContextId) : Prop where
  intact : s.heap.Intact
  spaced : s.heap.Spaced
  tabled : s.heap.TabledIn (s.gaps c) c
  flagged : s.heap.Flagged s.Holds
  sound : ∀ r ∈ s.underWay, r.Sound s.heap c
  alone : s.underWay.Pairwise Apart

theorem charted_of_supply (supply : Nat → Nat → Option Address) (c : ContextId) :
    Charted ⟨{ supply }, []⟩ c where
  intact := intact_of_supply supply
  spaced := spaced_of_supply supply
  tabled _ found := absurd found (by simp)
  flagged _ _ found := absurd found (by simp)
  sound _ under := absurd under List.not_mem_nil
  alone := .nil

theorem blurs_of_address {a : Address} (same : h'.address? (.block r.peer) = h.address? (.block r.peer))
    (blurs : r.Blurs h a) : r.Blurs h' a :=
  blurs.imp_left (fun held => ⟨held.1, same.trans held.2⟩)

theorem charted_call (C : Charted ⟨h, rs⟩ c) {call : Call} (ok : call.Admissible h)
    (ran : call.Ran c h h') : Charted ⟨h', rs⟩ c := by
  have I := C.intact
  have S := ran_skirts I ran
  have step := ran_step ok ran
  refine ⟨step_intact I step, ran_spaced I ran C.spaced, (ran_tabledIn I ran C.spaced C.tabled).widen ?_ ?_,
    S.flagged C.flagged, fun r under => ?_, C.alone⟩
  · rintro a ⟨r, under, own, blurs⟩
    obtain ⟨q, hq⟩ := has_peer_iff.mp (C.sound r under).there
    exact ⟨r, under, own, blurs_of_address
      (S.parted _ q hq (I.unpointed (C.sound r under).ownerless)).2 blurs⟩
  · exact fun k gap => gap
  · have sound := C.sound r under
    obtain ⟨q, hq⟩ := has_peer_iff.mp sound.there
    exact sound.carry I (step_follows I step) (has_peer_iff.mpr (S.stays _ q hq))
      (ran_listsIn I ok ran sound.there)

theorem sound_shed (C : Charted ⟨h, rs⟩ c) (S : h.Sheds h') (under : r ∈ rs)
    (there : h'.has (.peer r.peer) = true) : r.Sound h' c :=
  (C.sound r under).carry C.intact S.follows there S.listsIn

theorem charted_more (more : List Release) (C : Charted ⟨h, rs⟩ c)
    (settled : ∀ r ∈ more, r.stage.settled = true) (sound : ∀ r ∈ more, r.Sound h c) :
    Charted ⟨h, more ++ rs⟩ c := by
  refine ⟨C.intact, C.spaced, C.tabled.widen ?_ ?_, fun p q hq released => (C.flagged p q hq released).imp_right
    (fun holds a there => ?_), fun r under => (List.mem_append.mp under).elim (sound r) (C.sound r), ?_⟩
  · rintro a ⟨r, under, gap⟩
    exact ⟨r, List.mem_append_right _ under, gap⟩
  · rintro k ⟨r, under, gap⟩
    exact ⟨r, List.mem_append_right _ under, gap⟩
  · obtain ⟨r, under, held⟩ := holds a there
    exact ⟨r, List.mem_append_right _ under, held⟩
  · refine List.pairwise_append.mpr ⟨List.pairwise_of_forall_mem_list (fun r mem _ _ held => ?_), C.alone,
      fun r mem _ _ held => ?_⟩
    all_goals exact absurd held (Stage.not_holds_of_settled (settled r mem))

theorem charted_shed (C : Charted ⟨h, rs⟩ c) (S : h.Sheds h')
    (same : ∀ i q', h'.peers.find? i = some q' → h.peers.find? i = some q')
    (stays : ∀ r ∈ rs, h'.peers.find? r.peer = h.peers.find? r.peer)
    (tabled : h'.TabledIn (gaps ⟨h, rs⟩ c) c) : Charted ⟨h', rs⟩ c := by
  refine ⟨S.intact C.intact, S.spaced C.spaced, tabled.widen ?_ (fun _ => id),
    S.flagged C.flagged (fun i q q' hq hq' released => .inl ?_) (fun _ _ held _ => held),
    fun r under => sound_shed C S under ?_, C.alone⟩
  · rintro a ⟨r, under, own, blurs⟩
    exact ⟨r, under, own, blurs_of_address (by rw [address?, stays r under, address?]) blurs⟩
  · cases hq.symm.trans (same i q' hq')
    exact released
  · obtain ⟨q, hq⟩ := has_peer_iff.mp (C.sound r under).there
    exact has_peer_iff.mpr ⟨q, (stays r under).trans hq⟩

theorem charted_bury (C : Charted ⟨h, rs⟩ c) {roots : List Ref} {x : Ref}
    (dead : x ∈ h.dead (roots ++ rs.flatMap Release.refs)) :
    Charted ⟨h.without x, (h.legacy? x).toList.map (fun (d, p) => ⟨d, p, false, .left⟩) ++ rs⟩ c := by
  have I := C.intact
  obtain ⟨_, unrooted, unheld, _⟩ := mem_dead_iff.mp dead
  have S := without_sheds I unheld
  have stays : ∀ r ∈ rs, (h.without x).peers.find? r.peer = h.peers.find? r.peer := by
    intro r under
    cases x with
    | peer i =>
      refine (Store.find_erase _ _ _).trans (if_neg ?_)
      rintro rfl
      exact unrooted (List.mem_append_right _ (List.mem_flatMap.mpr ⟨r, under, List.mem_cons_self⟩))
    | _ => rfl
  refine charted_more _ (charted_shed C S (find_without h x).2.2.1 stays (C.tabled.without unheld))
    (fun r new => ?_) (fun r new => ?_)
  · obtain ⟨⟨d, p⟩, _, rfl⟩ := List.mem_map.mp new
    rfl
  · obtain ⟨⟨d, p⟩, left, rfl⟩ := List.mem_map.mp new
    obtain ⟨o, rfl, own, _, pointer⟩ := (legacy_eq_some_iff I).mp (Option.mem_toList.mp left)
    obtain ⟨q, hq, owner, _⟩ := I.peer_of_object pointer
    have there : (h.without (.ofObject o)).peers.find? p = some q := by cases o <;> exact hq
    refine sound_settled rfl (has_peer_iff.mpr ⟨q, there⟩) (fun q' hq' => ?_) (fun lists => ?_)
    · cases there.symm.trans hq'
      rw [owner]
      cases o with
      | vector v => exact Store.contains_erase_self h.vectors v
      | string s => exact Store.contains_erase_self h.strings s
    · obtain ⟨ctx, k, found, entry⟩ := S.listsIn lists
      exact (C.tabled ctx found).1.apart o d p k own pointer entry

theorem charted_noted (C : Charted ⟨h, rs⟩ c) {d : ContextId} {f : Reclaimer → Reclaimer}
    (fewer : ∀ ctx, h.contexts.find? d = some ctx →
      ∀ p ∈ (f ctx.reclaimer).queue, p ∈ ctx.reclaimer.queue) :
    Charted ⟨h.modifyReclaimer d f, rs⟩ c :=
  charted_shed C
    (modifyReclaimer_sheds C.intact d f (fun ctx p found queued => .inl (fewer ctx found p queued)))
    (fun _ _ => id) (fun _ _ => rfl)
    (C.tabled.noted (fun ctx found p queued => .inl (fewer ctx found p queued)))

theorem charted_dequeue (C : Charted ⟨h, rs⟩ c) {d : ContextId} {p : PeerId} {ctx : Context}
    {taken : Reclaimer} (found : h.contexts.find? d = some ctx)
    (next : ctx.reclaimer.dequeue? = some (p, taken)) :
    Charted ⟨h.modifyReclaimer d (fun _ => taken), ⟨d, p, true, .taken⟩ :: rs⟩ c := by
  have I := C.intact
  obtain ⟨rest, queue, rfl⟩ := dequeue_some next
  have queued : p ∈ ctx.reclaimer.queue := queue ▸ List.mem_cons_self
  have there : h.has (.peer p) = true :=
    (I.contexts d ctx found).refs _ (mem_context_refs.mpr (.inr (.inr ⟨p, queued, rfl⟩)))
  have S := dequeued_sheds I found queue
  have ownerless : h.Ownerless p := fun q hq => (I.contexts d ctx found).queued p q queued hq
  refine charted_more [_] (charted_noted C (fun ctx' found' i hi => ?_)) (fun r new => ?_)
    (fun r new => ?_)
  · cases found.symm.trans found'
    exact queue ▸ List.mem_cons_of_mem _ hi
  · cases List.mem_singleton.mp new
    rfl
  · cases List.mem_singleton.mp new
    refine sound_settled rfl there (ownerless.later S) (fun lists => ?_)
    obtain ⟨ctx', k, found', entry⟩ := S.listsIn lists
    exact (C.tabled ctx' found').1.waiting d ctx p k found queued entry

/-! ### Moves of a release -/

section Moves

variable {next : Option Release} {d : ContextId} {p : PeerId} {counted : Bool} {q : Peer} {a : Address}
  {k : Handle} {b : Backing}

theorem mem_moved {r' : Release} (under : r' ∈ before ++ r :: after) : r' = r ∨ r' ∈ before ++ after := by
  simp only [List.mem_append, List.mem_cons] at under ⊢
  rcases under with first | rfl | last
  · exact .inr (.inl first)
  · exact .inl rfl
  · exact .inr (.inr last)

theorem mem_stays {r' : Release} (mem : r' ∈ before ++ after) : r' ∈ before ++ next.toList ++ after := by
  simp only [List.mem_append] at mem ⊢
  exact mem.imp_left .inl

theorem mem_next {r' : Release} (mem : r' ∈ next) : r' ∈ before ++ next.toList ++ after :=
  List.mem_append_left _ (List.mem_append_right _ (Option.mem_toList.mpr mem))

/-- A gap at an address is that of the release or stays one. -/
theorem address_gap (blocks : ∀ i, h'.address? (.block i) = h.address? (.block i))
    (gap : (gaps ⟨h, before ++ r :: after⟩ c).address a) :
    (r.context = c ∧ r.Blurs h a) ∨ (gaps ⟨h', before ++ next.toList ++ after⟩ c).address a := by
  obtain ⟨r', under, own, blurs⟩ := gap
  rcases mem_moved under with rfl | stays
  · exact .inl ⟨own, blurs⟩
  · exact .inr ⟨r', mem_stays stays, own, blurs_of_address (blocks _) blurs⟩

theorem handle_gap (gap : (gaps ⟨h, before ++ r :: after⟩ c).handle k) :
    (r.context = c ∧ r.stage = .delisted k) ∨
      (gaps ⟨h', before ++ next.toList ++ after⟩ c).handle k := by
  obtain ⟨r', under, own, stage⟩ := gap
  rcases mem_moved under with rfl | stays
  · exact .inl ⟨own, stage⟩
  · exact .inr ⟨r', mem_stays stays, own, stage⟩

theorem tabledIn_settled {g : Heap} (t : g.TabledIn (gaps ⟨h, before ++ r :: after⟩ c) c)
    (settled : r.stage.settled = true) (blocks : ∀ i, h'.address? (.block i) = h.address? (.block i)) :
    g.TabledIn (gaps ⟨h', before ++ next.toList ++ after⟩ c) c := by
  refine t.widen (fun a gap => (address_gap blocks gap).elim (fun own => ?_) id)
    (fun k gap => (handle_gap gap).elim (fun own => ?_) id)
  · rcases own.2 with ⟨held, _⟩ | ⟨b, freed, _⟩
    · cases stage : r.stage <;> rw [stage] at held settled <;> cases held <;> cases settled
    · rw [freed] at settled
      cases settled
  · rw [own.2] at settled
    cases settled

theorem apart_other (alone : (before ++ r :: after).Pairwise Apart) {r' : Release}
    (mem : r' ∈ before ++ after) : Apart r' r := by
  obtain ⟨_, rest, cross⟩ := List.pairwise_append.mp alone
  rcases List.mem_append.mp mem with first | last
  · exact cross r' first r List.mem_cons_self
  · exact fun held' held same => (List.pairwise_cons.mp rest).1 r' last held held' same.symm

theorem alone_moved (C : Charted ⟨h, before ++ r :: after⟩ c) (onward : ∀ r' ∈ next, r.Onward r' h h' c) :
    (before ++ next.toList ++ after).Pairwise Apart := by
  obtain ⟨first, rest, cross⟩ := List.pairwise_append.mp C.alone
  have last := (List.pairwise_cons.mp rest).2
  rw [List.append_assoc]
  cases next with
  | none =>
    exact List.pairwise_append.mpr
      ⟨first, last, fun r₁ h₁ r₂ h₂ => cross r₁ h₁ r₂ (List.mem_cons_of_mem _ h₂)⟩
  | some r' =>
    obtain ⟨peer, marks, _⟩ := onward r' rfl
    -- Another one that marked the peer keeps this one from having done so.
    have other : ∀ r₁ ∈ before ++ after, Apart r₁ r' := by
      intro r₁ mem held₁ held' same
      rcases marks held' with held | ⟨q, hq, live⟩
      · exact apart_other C.alone mem held₁ held (same.trans peer)
      · have under : r₁ ∈ before ++ r :: after := by
          rcases List.mem_append.mp mem with first | last
          · exact List.mem_append_left _ first
          · exact List.mem_append_right _ (List.mem_cons_of_mem _ last)
        have released := (C.sound r₁ under).marked held₁ q (by rw [same, peer]; exact hq)
        exact absurd (live.symm.trans released) (by decide)
    refine List.pairwise_append.mpr ⟨first, List.pairwise_cons.mpr ⟨fun r₂ h₂ held' held₂ same => ?_, last⟩,
      fun r₁ h₁ r₂ h₂ => ?_⟩
    · exact other r₂ (List.mem_append_right _ h₂) held₂ held' same.symm
    · rcases List.mem_cons.mp h₂ with rfl | h₂
      · exact other r₁ (List.mem_append_left _ h₁)
      · exact cross r₁ h₁ r₂ (List.mem_cons_of_mem _ h₂)

/-- A move sheds something, and the other releases go on as before. -/
theorem charted_moved (C : Charted ⟨h, before ++ r :: after⟩ c) (S : h.Sheds h')
    (has : ∀ i, h'.has (.peer i) = h.has (.peer i))
    (tabled : h'.TabledIn (gaps ⟨h', before ++ next.toList ++ after⟩ c) c)
    (marks : ∀ i q q', h.peers.find? i = some q → h'.peers.find? i = some q' → q'.released = true →
      q.released = true ∨ ∃ r' ∈ next, r'.peer = i ∧ r'.stage.holds = true ∧ h.Ownerless i)
    (holds : ∀ a, r.stage.holds = true → h'.address? (.block r.peer) = some a →
      ∃ r' ∈ next, r'.peer = r.peer ∧ r'.stage.holds = true)
    (onward : ∀ r' ∈ next, r.Onward r' h h' c) : Charted ⟨h', before ++ next.toList ++ after⟩ c := by
  refine ⟨S.intact C.intact, S.spaced C.spaced, tabled, S.flagged C.flagged
    (fun i q q' hq hq' released => (marks i q q' hq hq' released).imp_right ?_) ?_, fun r' under => ?_,
    alone_moved C onward⟩
  · rintro ⟨r', mem, rfl, held, ownerless⟩
    exact ⟨C.intact.unpointed ownerless, r', mem_next mem, rfl, held⟩
  · rintro i a ⟨r', under, rfl, held⟩ there
    rcases mem_moved under with rfl | stays
    · obtain ⟨r'', mem, same, held'⟩ := holds a held there
      exact ⟨r'', mem_next mem, same, held'⟩
    · exact ⟨r', mem_stays stays, rfl, held⟩
  · have stays : r' ∈ before ++ r :: after → r'.Sound h' c := fun old =>
      sound_shed C S old ((has _).trans (C.sound r' old).there)
    simp only [List.mem_append, Option.mem_toList] at under
    rcases under with (first | mem) | last
    · exact stays (List.mem_append_left _ first)
    · exact (onward r' mem).sound
    · exact stays (List.mem_append_right _ (List.mem_cons_of_mem _ last))

variable (next) in
theorem charted_beside (C : Charted ⟨h, before ++ r :: after⟩ c) (S : h.Sheds h') (same : h'.peers = h.peers)
    (tabled : h'.TabledIn (gaps ⟨h', before ++ next.toList ++ after⟩ c) c)
    (holds : r.stage.holds = true → ∃ r' ∈ next, r'.peer = r.peer ∧ r'.stage.holds = true)
    (onward : ∀ r' ∈ next, r.Onward r' h h' c) : Charted ⟨h', before ++ next.toList ++ after⟩ c := by
  refine charted_moved C S (fun i => ?_) tabled (fun i q q' hq hq' released => .inl ?_)
    (fun _ held _ => holds held) onward
  · change h'.peers.contains i = h.peers.contains i
    rw [same]
  · cases hq.symm.trans (same ▸ hq')
    exact released

theorem blocks_of_peers (same : h'.peers = h.peers) (i : PeerId) :
    h'.address? (.block i) = h.address? (.block i) := by rw [address?, same, address?]

theorem charted_handIn (C : Charted ⟨h, before ++ ⟨d, p, counted, .left⟩ :: after⟩ c) :
    Charted ⟨(h.handIn d p).1, before ++
      (if (h.handIn d p).2 then some ⟨d, p, true, .taken⟩ else none : Option Release).toList ++ after⟩ c := by
  have I := C.intact
  have sound := C.sound ⟨d, p, counted, .left⟩ (by simp)
  have counting : h.Sheds (h.modifyReclaimer d (·.count)) := modifyReclaimer_sheds I d _ (fun _ _ _ => .inl)
  have tabled : (h.modifyReclaimer d (·.count)).TabledIn
      (gaps ⟨h, before ++ ⟨d, p, counted, .left⟩ :: after⟩ c) c := C.tabled.noted (fun _ _ _ => .inl)
  have later := sound.carry I counting.follows sound.there counting.listsIn
  rcases handIn_cases h d p with ⟨running, queued⟩ | back | ⟨panic, stuck⟩
  · rw [queued]
    have S := modifyReclaimer_sheds (counting.intact I) d
      (fun r => { r with running, queue := r.queue ++ [p] }) (fun ctx i _ hi => by
        rcases List.mem_append.mp hi with old | new
        · exact .inl old
        · cases List.mem_singleton.mp new
          exact .inr ⟨later.there, later.ownerless⟩)
    refine charted_beside none C (counting.trans S) rfl
      (tabledIn_settled (tabled.noted ?_) rfl (fun _ => rfl))
      nofun (by simp)
    intro ctx found i hi
    rcases List.mem_append.mp hi with old | new
    · exact .inl old
    · cases List.mem_singleton.mp new
      exact .inr later.own
  · rw [back]
    refine charted_beside (some ⟨d, p, true, .taken⟩) C counting rfl
      (tabledIn_settled tabled rfl (fun _ => rfl)) nofun ?_
    rintro _ ⟨⟩
    exact later.onward rfl rfl rfl
  · rw [stuck]
    refine charted_beside none C (counting.noting _) rfl
      (tabledIn_settled (r := ⟨d, p, counted, .left⟩) (fun ctx found => ?_) rfl (fun _ => rfl))
      nofun (by simp)
    exact tabled_of_same (tabled ctx found) rfl rfl rfl
      (fun e ctx'' found'' i queued => ⟨ctx'', found'', queued⟩) rfl rfl

theorem charted_pass (C : Charted ⟨h, before ++ ⟨d, p, counted, .taken⟩ :: after⟩ c) (ran : Bool) :
    Charted ⟨h, before ++ (some ⟨d, p, counted, .ended ran⟩ : Option Release).toList ++ after⟩ c := by
  have sound := C.sound ⟨d, p, counted, .taken⟩ (by simp)
  refine charted_beside _ C (.refl C.intact) rfl (tabledIn_settled C.tabled rfl (fun _ => rfl))
    nofun ?_
  rintro _ ⟨⟩
  exact sound.onward rfl rfl rfl

theorem charted_mark (C : Charted ⟨h, before ++ ⟨d, p, counted, .taken⟩ :: after⟩ c)
    (unmarked : ∃ q, h.peers.find? p = some q ∧ q.released = false) :
    Charted ⟨h.mark p, before ++ (some ⟨d, p, counted, .marked⟩ : Option Release).toList ++ after⟩ c := by
  have sound := C.sound ⟨d, p, counted, .taken⟩ (by simp)
  have S : h.Sheds (h.mark p) := faded_sheds C.intact sound.ownerless
    (fun q => ⟨rfl, rfl, fun _ => rfl, .inl rfl, .inl rfl⟩)
  have later := sound_shed C S (r := ⟨d, p, counted, .taken⟩) (by simp)
    ((has_modifyPeer ..).trans sound.there)
  refine charted_moved C S (fun i => has_modifyPeer ..) ?_ (fun i q q' hq hq' released => ?_)
    nofun ?_
  · exact tabledIn_settled (C.tabled.modifyPeer _ (fun _ => rfl) (.inl (fun _ => rfl))) rfl
      (fun i => address_modifyPeer h p (f := fun q => { q with released := true }) (fun _ => rfl) _)
  · by_cases this : p = i
    · subst this
      exact .inr ⟨_, rfl, rfl, rfl, sound.ownerless⟩
    · cases hq.symm.trans ((h.peers.find_modify_ne _ this).symm.trans hq')
      exact .inl released
  · rintro _ ⟨⟩
    refine ⟨rfl, fun _ => .inr unmarked, later.on .marked (fun _ q' hq' => ?_)
      nofun⟩
    obtain ⟨q, _, rfl⟩ := Option.map_eq_some_iff.mp ((h.peers.find_modify_self p _).symm.trans hq')
    rfl

theorem address_gap_held {r' : Release} (mem : r' ∈ next) (context : r'.context = r.context)
    (peer : r'.peer = r.peer) (held : r.stage.holds = true) (held' : r'.stage.holds = true)
    (blocks : ∀ i, h'.address? (.block i) = h.address? (.block i))
    (gap : (gaps ⟨h, before ++ r :: after⟩ c).address a) :
    (gaps ⟨h', before ++ next.toList ++ after⟩ c).address a := by
  rcases address_gap blocks gap with ⟨own, blurs⟩ | stays
  · rcases blurs with ⟨_, there⟩ | ⟨b, freed, _⟩
    · exact ⟨r', mem_next mem, context.trans own, .inl ⟨held', by rw [peer, blocks, there]⟩⟩
    · rw [freed] at held
      cases held
  · exact stays

theorem charted_registry {f : Registry → Registry} (C : Charted ⟨h, before ++ r :: after⟩ c)
    (S : h.Sheds (h.modifyRegistry r.context f))
    (here : ∀ ctx, r.context = c → h.contexts.find? c = some ctx →
      (∀ o k i, h.peerOf? o = some i → ctx.registry.peer? k = some i → (f ctx.registry).peer? k = some i) ∧
      h.Tables (gaps ⟨h.modifyRegistry r.context f, before ++ next.toList ++ after⟩ c)
        { ctx with registry := f ctx.registry })
    (holds : r.stage.holds = true → ∃ r' ∈ next, r'.peer = r.peer ∧ r'.stage.holds = true)
    (onward : r.Sound (h.modifyRegistry r.context f) c →
      ∀ r' ∈ next, r.Onward r' h (h.modifyRegistry r.context f) c) :
    Charted ⟨h.modifyRegistry r.context f, before ++ next.toList ++ after⟩ c := by
  have under : r ∈ before ++ r :: after := List.mem_append_right _ List.mem_cons_self
  refine charted_beside _ C S rfl (C.tabled.modifyRegistry _ _ (fun own ctx found => ?_)
    (fun other => ⟨fun a gap => ?_, fun k gap => ?_⟩)) holds
    (onward (sound_shed C S under (C.sound r under).there))
  · have changed : (h.modifyRegistry r.context f).contexts.find? c =
        some { ctx with registry := f ctx.registry } := by
      rw [own]
      exact (Store.find_modify_self _ c _).trans (congrArg (Option.map _) found)
    obtain ⟨ctx₀, found₀, _, _, _, _, _, entries, _⟩ := S.contexts c _ changed
    cases found.symm.trans found₀
    exact ⟨entries, here ctx own found⟩
  · exact (address_gap (blocks_of_peers rfl) gap).elim (fun own => absurd own.1 other) id
  · exact (handle_gap gap).elim (fun own => absurd own.1 other) id

theorem charted_delist (C : Charted ⟨h, before ++ ⟨d, p, counted, .marked⟩ :: after⟩ c)
    (hq : h.peers.find? p = some q)
    (entry : (h.contexts.find? d).bind (·.registry.peer? q.handle) = some p) :
    Charted ⟨h.modifyRegistry d (·.delist q.handle),
      before ++ (some ⟨d, p, counted, .delisted q.handle⟩ : Option Release).toList ++ after⟩ c := by
  have sound := C.sound ⟨d, p, counted, .marked⟩ (by simp)
  refine charted_registry (r := ⟨d, p, counted, .marked⟩) C (delist_sheds C.intact d _)
    (fun ctx own found => ?_) (fun _ => ⟨_, rfl, rfl, rfl⟩) (fun later => ?_)
  · cases own
    have listed : ctx.registry.peer? q.handle = some p := by
      rw [found] at entry
      exact entry
    refine ⟨fun o k i pointer old => ?_, (C.tabled ctx found).2.delist listed (fun a gap => ?_)
      (fun k gap => ?_)⟩
    · rw [Registry.peer_delist, if_neg]
      · exact old
      · rintro rfl
        cases listed.symm.trans old
        exact C.intact.unpointed sound.ownerless o pointer
    · rcases gap with old | there
      · exact address_gap_held (r := ⟨d, p, counted, .marked⟩) rfl rfl rfl rfl rfl (blocks_of_peers rfl) old
      · exact ⟨_, mem_next rfl, rfl, .inl ⟨rfl, there⟩⟩
    · rcases gap with old | rfl
      · exact (handle_gap old).elim (fun own => absurd own.2 (by simp)) id
      · exact ⟨_, mem_next rfl, rfl, rfl⟩
  · rintro _ ⟨⟩
    refine ⟨rfl, fun _ => .inl rfl, later.on (.delisted q.handle) (fun _ => later.marked rfl)
      (fun _ lists => ?_)⟩
    -- Under its own handle the peer was listed or not at all.
    rcases later.own with own | unlisted
    · cases own
      obtain ⟨ctx', k, found', listed⟩ := lists
      obtain ⟨ctx, found, rfl⟩ :=
        Option.map_eq_some_iff.mp ((Store.find_modify_self h.contexts d _).symm.trans found')
      obtain ⟨other, old⟩ := peer_of_delist listed
      obtain ⟨q', hq', rfl⟩ := (C.tabled ctx found).1.entry k p old
      cases hq.symm.trans hq'
      exact other rfl
    · exact unlisted lists

/-- The entry of a handle that another peer has stays. -/
theorem charted_miss (C : Charted ⟨h, before ++ ⟨d, p, counted, .marked⟩ :: after⟩ c)
    (hq : h.peers.find? p = some q)
    (other : (h.contexts.find? d).bind (·.registry.peer? q.handle) ≠ some p) :
    Charted ⟨h, before ++ (some ⟨d, p, counted, .struck⟩ : Option Release).toList ++ after⟩ c := by
  have sound := C.sound ⟨d, p, counted, .marked⟩ (by simp)
  refine charted_beside _ C (.refl C.intact) rfl (C.tabled.widen
    (fun a gap => address_gap_held (r := ⟨d, p, counted, .marked⟩) rfl rfl rfl rfl rfl (fun _ => rfl) gap)
    (fun k gap => (handle_gap gap).elim (fun own => absurd own.2 (by simp)) id))
    (fun _ => ⟨_, rfl, rfl, rfl⟩) ?_
  rintro _ ⟨⟩
  refine ⟨rfl, fun _ => .inl rfl, sound.on .struck (fun _ => sound.marked rfl) (fun _ lists => ?_)⟩
  rcases sound.own with rfl | unlisted
  · obtain ⟨ctx, k, found, entry⟩ := lists
    obtain ⟨q', hq', rfl⟩ := (C.tabled ctx found).1.entry k p entry
    cases hq.symm.trans hq'
    rw [found] at other
    exact other entry
  · exact unlisted lists

/-- The release is not overtaken while its handle is free. -/
theorem charted_forgetSite (C : Charted ⟨h, before ++ ⟨d, p, counted, .delisted k⟩ :: after⟩ c)
    (clear : ¬ Overtaken ⟨h, before ++ ⟨d, p, counted, .delisted k⟩ :: after⟩ c) :
    Charted ⟨h.modifyRegistry d (·.forgetSite k),
      before ++ (some ⟨d, p, counted, .struck⟩ : Option Release).toList ++ after⟩ c := by
  refine charted_registry (r := ⟨d, p, counted, .delisted k⟩) C (forgetSite_sheds C.intact d k)
    (fun ctx own found => ?_) (fun _ => ⟨_, rfl, rfl, rfl⟩) (fun later => ?_)
  · have free : ctx.registry.peer? k = none := by
      refine Option.not_isSome_iff_eq_none.mp (fun taken =>
        clear ⟨⟨d, p, counted, .delisted k⟩, by simp, own, ?_⟩)
      cases own
      rw [Release.overtaken, found]
      exact taken
    refine ⟨fun _ _ _ _ => id, (C.tabled ctx found).2.forgetSite free
      (fun a gap => address_gap_held (r := ⟨d, p, counted, .delisted k⟩) rfl rfl rfl rfl rfl
        (blocks_of_peers rfl) gap) (fun k' gap => ?_)⟩
    rcases handle_gap gap with ⟨_, stage⟩ | stays
    · cases stage
      exact .inr rfl
    · exact .inl stays
  · rintro _ ⟨⟩
    exact ⟨rfl, fun _ => .inl rfl, later.on .struck (fun _ => later.marked rfl) (fun _ => later.delisted rfl)⟩

/-- The block is free, and its address a gap until it is off the index. -/
theorem charted_free (C : Charted ⟨h, before ++ ⟨d, p, counted, .struck⟩ :: after⟩ c)
    (hq : h.peers.find? p = some q) :
    Charted ⟨h.free p,
      before ++ (some ⟨d, p, counted, .freed q.backing⟩ : Option Release).toList ++ after⟩ c := by
  have sound := C.sound ⟨d, p, counted, .struck⟩ (by simp)
  have S : h.Sheds (h.free p) := faded_sheds C.intact sound.ownerless
    (fun q => ⟨rfl, rfl, id, .inr rfl, .inl rfl⟩)
  have later := sound_shed C S (r := ⟨d, p, counted, .struck⟩) (by simp)
    ((has_modifyPeer ..).trans sound.there)
  have gone : (h.free p).address? (.block p) = none := by
    rw [address?, free, modifyPeer, Store.find_modify_self, hq]
    rfl
  have lay : h.address? (.block p) = q.backing.owned?.map Prod.fst := by rw [address?, hq]; rfl
  refine charted_moved C S (fun i => has_modifyPeer ..) ?_ (fun i q₀ q' hq₀ hq' released => .inl ?_)
    (fun a _ there => absurd (gone.symm.trans there) (by simp)) ?_
  · refine (C.tabled.modifyPeer (fun q => { q with backing := .unallocated }) (fun _ => rfl)
      (.inr (sound.delisted rfl))).widen ?_
      (fun k gap => (handle_gap gap).elim (fun own => absurd own.2 (by simp)) id)
    rintro a ⟨r, under, own, blurs⟩
    rcases mem_moved under with rfl | stays
    · rcases blurs with ⟨_, there⟩ | ⟨b, freed, _⟩
      · exact ⟨_, mem_next rfl, own, .inr ⟨_, rfl, lay.symm.trans there⟩⟩
      · cases freed
    · refine ⟨r, mem_stays stays, own, blurs.imp_left fun blur => ⟨blur.1, ?_⟩⟩
      refine (address_modifyPeer_ne h _ ?_).trans blur.2
      rintro ⟨⟩
      exact apart_other C.alone stays blur.1 rfl rfl
  · exact released_of_modifyPeer (f := fun q => { q with backing := .unallocated }) (fun _ => rfl) hq₀ hq'
      released
  · rintro _ ⟨⟩
    exact ⟨rfl, fun holds => absurd holds Bool.false_ne_true,
      later.on (.freed q.backing) (fun _ => later.marked rfl) (fun _ => later.delisted rfl)⟩

/-- The release is not overtaken while the address is on the index still. -/
theorem charted_unindex (C : Charted ⟨h, before ++ ⟨d, p, counted, .freed b⟩ :: after⟩ c)
    (clear : ¬ Overtaken ⟨h, before ++ ⟨d, p, counted, .freed b⟩ :: after⟩ c) :
    Charted ⟨h.modifyRegistry d (·.unindex b),
      before ++ (some ⟨d, p, counted, .unindexed b⟩ : Option Release).toList ++ after⟩ c := by
  have peers : ∀ (g : Registry) k, (g.unindex b).peer? k = g.peer? k := fun g k => by cases b <;> rfl
  refine charted_registry (r := ⟨d, p, counted, .freed b⟩) C (unindex_sheds C.intact d b)
    (fun ctx own found => ?_) nofun (fun later => ?_)
  · refine ⟨fun _ k i _ listed => (peers _ k).trans listed, (C.tabled ctx found).2.unindex
      (fun a k i freed entry there => ?_) (fun a gap => ?_)
      (fun k gap => (handle_gap gap).elim (fun own => absurd own.2 (by simp)) id)⟩
    · refine clear ⟨⟨d, p, counted, .freed b⟩, by simp, own, ?_⟩
      cases own
      rw [Release.overtaken, found]
      refine List.any_eq_true.mpr ⟨i, (Table.mem_values_iff ..).mpr ⟨k, entry⟩, ?_⟩
      have owned : b.owned?.isSome = true := by
        obtain ⟨_, some, _⟩ := Option.map_eq_some_iff.mp freed
        rw [some]
        rfl
      simp [owned, freed, there]
    · have same : ∀ i, (h.modifyRegistry d (·.unindex b)).address? (.block i) = h.address? (.block i) :=
        blocks_of_peers rfl
      rcases address_gap same gap with ⟨_, blurs⟩ | stays
      · rcases blurs with ⟨held, _⟩ | ⟨b', freed, lay⟩
        · cases held
        · cases freed
          exact .inr lay
      · exact .inl stays
  · rintro _ ⟨⟩
    exact later.onward rfl rfl rfl

theorem charted_noteFreed (C : Charted ⟨h, before ++ ⟨d, p, counted, .unindexed b⟩ :: after⟩ c) :
    Charted ⟨h.modifyRegistry d (·.noteFreed b),
      before ++ (some ⟨d, p, counted, .noted⟩ : Option Release).toList ++ after⟩ c := by
  refine charted_registry (r := ⟨d, p, counted, .unindexed b⟩) C (noteFreed_sheds C.intact d b)
    (fun ctx _ found => ⟨fun _ _ _ _ => id, ?_⟩) nofun (fun later => ?_)
  · exact ((tabledIn_settled C.tabled rfl (blocks_of_peers rfl)) ctx found).2.noteFreed b
  · rintro _ ⟨⟩
    exact later.onward rfl rfl rfl

theorem charted_unpin (C : Charted ⟨h, before ++ ⟨d, p, counted, .noted⟩ :: after⟩ c) :
    Charted ⟨h.unpin p,
      before ++ (some ⟨d, p, counted, .ended true⟩ : Option Release).toList ++ after⟩ c := by
  have sound := C.sound ⟨d, p, counted, .noted⟩ (by simp)
  have S : h.Sheds (h.unpin p) := faded_sheds C.intact sound.ownerless
    (fun q => ⟨rfl, rfl, id, .inl rfl, .inr rfl⟩)
  have later := sound_shed C S (r := ⟨d, p, counted, .noted⟩) (by simp)
    ((has_modifyPeer ..).trans sound.there)
  refine charted_moved C S (fun i => has_modifyPeer ..) ?_ (fun i q q' hq hq' released => .inl ?_) nofun ?_
  · exact tabledIn_settled (C.tabled.modifyPeer (fun q => { q with pins := [] }) (fun _ => rfl)
      (.inl (fun _ => rfl))) rfl (fun i => address_modifyPeer h p (f := fun q => { q with pins := [] })
        (fun _ => rfl) _)
  · exact released_of_modifyPeer (f := fun q => { q with pins := [] }) (fun _ => rfl) hq hq' released
  · rintro _ ⟨⟩
    exact later.onward rfl rfl rfl

theorem charted_finish {ran : Bool} (C : Charted ⟨h, before ++ ⟨d, p, counted, .ended ran⟩ :: after⟩ c) :
    Charted ⟨if counted then h.modifyReclaimer d (·.finish ran) else h,
      before ++ (none : Option Release).toList ++ after⟩ c := by
  split
  · exact charted_beside _ C (modifyReclaimer_sheds C.intact d _ (fun _ _ _ => .inl)) rfl
      (tabledIn_settled (C.tabled.noted (fun _ _ _ => .inl)) rfl (fun _ => rfl)) nofun nofun
  · exact charted_beside _ C (.refl C.intact) rfl (tabledIn_settled C.tabled rfl (fun _ => rfl)) nofun nofun

/-- Whatever a release does next, unless it is overtaken. -/
theorem charted_advance (C : Charted ⟨h, before ++ r :: after⟩ c)
    (clear : ¬ Overtaken ⟨h, before ++ r :: after⟩ c) :
    Charted ⟨(r.advance h).1, before ++ (r.advance h).2.toList ++ after⟩ c := by
  obtain ⟨q, hq⟩ := has_peer_iff.mp (C.sound r (by simp)).there
  obtain ⟨d, p, counted, stage⟩ := r
  rw [Release.advance, hq]
  cases stage with
  | left => exact charted_handIn C
  | taken =>
    dsimp only
    split
    · exact charted_pass C false
    · rename_i live
      exact charted_mark C ⟨q, hq, by simpa using live⟩
  | marked =>
    dsimp only
    split
    · rename_i entry
      exact charted_delist C hq entry
    · rename_i other
      exact charted_miss C hq other
  | delisted k => exact charted_forgetSite C clear
  | struck => exact charted_free C hq
  | freed b => exact charted_unindex C clear
  | unindexed b => exact charted_noteFreed C
  | noted => exact charted_unpin C
  | ended ran => exact charted_finish C

end Moves

/-! ### Steps and runs -/

theorem charted_step (C : s.Charted c) (clear : ¬ s.Overtaken c) (last : Step c s s') : s'.Charted c := by
  cases last with
  | call call ok ran => exact charted_call C ok ran
  | bury roots x dead => exact charted_bury C dead
  | shutdown d => exact charted_noted C (fun _ _ _ => id)
  | dequeue found next => exact charted_dequeue C found next
  | byHand d p stage first there ownerless own =>
    have settled : stage.settled = true := by rcases first with rfl | rfl <;> rfl
    refine charted_more [⟨d, p, false, stage⟩] C (fun r new => ?_) (fun r new => ?_)
    · cases List.mem_singleton.mp new
      exact settled
    · cases List.mem_singleton.mp new
      exact sound_settled settled there ownerless (fun lists => own.resolve_right (fun un => un lists))
  | move => exact charted_advance C clear

theorem Run.clear (run : Run c h₀ past s) : ¬ s.Overtaken c := by
  cases run with
  | start =>
    rintro ⟨r, under, _⟩
    exact absurd under List.not_mem_nil
  | step first last clear => exact clear

theorem Run.charted (C : Charted ⟨h₀, []⟩ c) (run : Run c h₀ past s) : s.Charted c := by
  induction run with
  | start => exact C
  | step run last _ ih => exact charted_step ih run.clear last

/-! ### What was listed -/

def Retains (c : ContextId) (h h' : Heap) : Prop :=
  ∀ ctx ctx' k p, h.contexts.find? c = some ctx → h'.contexts.find? c = some ctx' →
    ctx.registry.peer? k = some p → ctx'.registry.peer? k = some p ∨
      ∀ q', h'.peers.find? p = some q' → q'.released = true

theorem retains_of_same (S : h.SameRegistries h') : Retains c h h' := by
  intro ctx ctx' k p found found' entry
  obtain ⟨ctx₀, found₀, same⟩ := S c ctx' found'
  cases found.symm.trans found₀
  exact .inl (same ▸ entry)

theorem retains_modifyRegistry {d : ContextId} {f : Registry → Registry}
    (kept : ∀ ctx k p, h.contexts.find? d = some ctx → ctx.registry.peer? k = some p →
      (f ctx.registry).peer? k = some p ∨ ∀ q, h.peers.find? p = some q → q.released = true) :
    Retains c h (h.modifyRegistry d f) := by
  intro ctx ctx' k p found found' entry
  by_cases this : d = c
  · subst this
    cases ((Store.find_modify_self h.contexts d _).trans (congrArg (Option.map _) found)).symm.trans found'
    exact kept ctx k p found entry
  · cases ((Store.find_modify_ne _ _ this).symm.trans found').symm.trans found
    exact .inl entry

theorem same_handIn (h : Heap) (d : ContextId) (p : PeerId) : h.SameRegistries (h.handIn d p).1 := by
  have counted := modifyReclaimer_same h d (·.count)
  rcases handIn_cases h d p with ⟨running, queued⟩ | back | ⟨panic, stuck⟩
  · rw [queued]
    exact counted.trans (modifyReclaimer_same _ d _)
  · rw [back]
    exact counted
  · rw [stuck]
    exact counted

theorem advance_sheds (I : h.Intact) (sound : r.Sound h c) : h.Sheds (r.advance h).1 := by
  obtain ⟨q, hq⟩ := has_peer_iff.mp sound.there
  obtain ⟨d, p, counted, stage⟩ := r
  rw [Release.advance, hq]
  cases stage with
  | left => exact handIn_sheds I d sound.there sound.ownerless
  | taken =>
    dsimp only
    split
    · exact .refl I
    · exact faded_sheds I sound.ownerless (fun q => ⟨rfl, rfl, fun _ => rfl, .inl rfl, .inl rfl⟩)
  | marked =>
    dsimp only
    split
    · exact delist_sheds I d _
    · exact .refl I
  | delisted k => exact forgetSite_sheds I d k
  | struck => exact faded_sheds I sound.ownerless (fun q => ⟨rfl, rfl, id, .inr rfl, .inl rfl⟩)
  | freed b => exact unindex_sheds I d b
  | unindexed b => exact noteFreed_sheds I d b
  | noted => exact faded_sheds I sound.ownerless (fun q => ⟨rfl, rfl, id, .inl rfl, .inr rfl⟩)
  | ended ran =>
    dsimp only
    split
    · exact modifyReclaimer_sheds I d _ (fun _ _ _ => .inl)
    · exact .refl I

theorem advance_retains (sound : r.Sound h c) : Retains c h (r.advance h).1 := by
  obtain ⟨q, hq⟩ := has_peer_iff.mp sound.there
  obtain ⟨d, p, counted, stage⟩ := r
  have same : ∀ g : Heap, g.contexts = h.contexts → Retains c h g :=
    fun g contexts => retains_of_same (fun i ctx found => ⟨ctx, contexts ▸ found, rfl⟩)
  rw [Release.advance, hq]
  cases stage with
  | left => exact retains_of_same (same_handIn h d p)
  | taken =>
    dsimp only
    split <;> exact same _ rfl
  | marked =>
    dsimp only
    split
    · rename_i entry
      refine retains_modifyRegistry (fun ctx k i found old => ?_)
      rw [found] at entry
      rw [Registry.peer_delist]
      split
      · rename_i own
        subst own
        cases entry.symm.trans old
        exact .inr (sound.marked rfl)
      · exact .inl old
    · exact same _ rfl
  | struck => exact same _ rfl
  | delisted k => exact retains_modifyRegistry (fun _ _ _ _ => .inl)
  | freed b => exact retains_modifyRegistry (fun ctx k i _ old => .inl (by cases b <;> exact old))
  | unindexed b => exact retains_modifyRegistry (fun _ _ _ _ => .inl)
  | noted => exact same _ rfl
  | ended ran =>
    dsimp only
    split
    · exact retains_of_same (modifyReclaimer_same h d _)
    · exact same _ rfl

theorem step_retains (C : s.Charted c) (last : Step c s s') :
    s.heap.Follows s'.heap ∧ Retains c s.heap s'.heap := by
  have I := C.intact
  cases last with
  | call call ok ran =>
    refine ⟨step_follows I (ran_step ok ran), fun ctx ctx' k p found found' entry => ?_⟩
    obtain ⟨h₁, L, same⟩ := ran_entries I ok ran
    obtain ⟨ctx₁, found₁, entry₁⟩ := L.kept c ctx k p found entry
    cases (same.symm.trans found').symm.trans found₁
    exact .inl entry₁
  | bury roots x dead =>
    exact ⟨(without_sheds I (mem_dead_iff.mp dead).2.2.1).follows, retains_of_same (without_same _ x)⟩
  | shutdown d => exact ⟨(shutdown_sheds I d).follows, retains_of_same (modifyReclaimer_same _ d _)⟩
  | dequeue found next =>
    obtain ⟨rest, queue, rfl⟩ := dequeue_some next
    exact ⟨(dequeued_sheds I found queue).follows, retains_of_same (modifyReclaimer_same _ _ _)⟩
  | byHand d p stage first there ownerless own =>
    exact ⟨.refl _, retains_of_same (fun i ctx found => ⟨ctx, found, rfl⟩)⟩
  | move =>
    have sound := C.sound _ (List.mem_append_right _ List.mem_cons_self)
    exact ⟨(advance_sheds I sound).follows, advance_retains sound⟩

end Scene
end Overlap
end VectorHeap
