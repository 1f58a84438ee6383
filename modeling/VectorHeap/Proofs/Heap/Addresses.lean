import VectorHeap.Proofs.Heap.Posting

/-! Addresses: what lies where. The blocks of peers, the sentinels of contexts and foreign buffers lie
apart from each other, since the allocator never gives away an address at which something lies. -/
namespace VectorHeap

inductive Occupant
  | block (p : PeerId)
  | sentinel (c : ContextId)
  | buffer (b : BufferId)
deriving DecidableEq

namespace Heap

variable {T : VectorId → Backing → Prop} {h h' : Heap} {x y : Occupant} {a : Address}

def address? (h : Heap) : Occupant → Option Address
  | .block p => (h.peers.find? p).bind (fun q => q.backing.owned?.map Prod.fst)
  | .sentinel c => h.sentinelOf? c
  | .buffer b => (h.buffers.find? b).map (·.address)

theorem mem_liveAddresses_iff : a ∈ h.liveAddresses ↔ ∃ x, h.address? x = some a := by
  simp only [liveAddresses, List.mem_append, List.mem_filterMap, List.mem_map, Store.mem_values_iff]
  constructor
  · rintro ((⟨q, ⟨p, hq⟩, at_⟩ | ⟨ctx, ⟨c, found⟩, at_⟩) | ⟨foreign, ⟨b, there⟩, at_⟩)
    · exact ⟨.block p, by rw [address?, hq]; exact at_⟩
    · exact ⟨.sentinel c, by rw [address?, sentinelOf?, found]; exact at_⟩
    · exact ⟨.buffer b, by rw [address?, there]; exact congrArg some at_⟩
  · rintro ⟨x, at_⟩
    cases x with
    | block p =>
      obtain ⟨q, hq, at_⟩ := Option.bind_eq_some_iff.mp at_
      exact .inl (.inl ⟨q, ⟨p, hq⟩, at_⟩)
    | sentinel c =>
      obtain ⟨ctx, found, at_⟩ := Option.bind_eq_some_iff.mp at_
      exact .inl (.inr ⟨ctx, ⟨c, found⟩, at_⟩)
    | buffer b =>
      obtain ⟨foreign, there, at_⟩ := Option.map_eq_some_iff.mp at_
      exact .inr ⟨foreign, ⟨b, there⟩, at_⟩

/-- At most one thing lies at an address. -/
def Spaced (h : Heap) : Prop := ∀ x y a, h.address? x = some a → h.address? y = some a → x = y

theorem spaced_of_supply (supply : Nat → Nat → Option Address) : Heap.Spaced { supply } := fun x _ a there => by
  cases x <;> exact absurd there (by simp [address?, sentinelOf?])

theorem Spaced.move (A : h.Spaced) (y : Occupant)
    (others : ∀ x, x ≠ y → ∀ a, h'.address? x = some a → h.address? x = some a)
    (free : ∀ a, h'.address? y = some a → h.address? y = some a ∨ a ∉ h.liveAddresses) : h'.Spaced := by
  have one : ∀ x a, x ≠ y → h'.address? x = some a → h'.address? y ≠ some a := by
    intro x a other there moved
    have before := others x other a there
    rcases free a moved with stayed | new
    · exact other (A x y a before stayed)
    · exact new (mem_liveAddresses_iff.mpr ⟨x, before⟩)
  intro x x' a there there'
  by_cases hx : x = y
  · by_cases hx' : x' = y
    · exact hx.trans hx'.symm
    · exact absurd (hx ▸ there) (one x' a hx' there')
  · by_cases hx' : x' = y
    · exact absurd (hx' ▸ there') (one x a hx there)
    · exact A x x' a (others x hx a there) (others x' hx' a there')

theorem Spaced.stay (A : h.Spaced) (same : ∀ x a, h'.address? x = some a → h.address? x = some a) :
    h'.Spaced :=
  fun x y a there there' => A x y a (same x a there) (same y a there')

/-! ### The allocator -/

theorem le_foldl_max (l : List Nat) (n : Nat) :
    n ≤ l.foldl max n ∧ ∀ m ∈ l, m ≤ l.foldl max n := by
  induction l generalizing n with
  | nil => exact ⟨Nat.le_refl n, by simp⟩
  | cons m l ih =>
    obtain ⟨first, rest⟩ := ih (max n m)
    refine ⟨Nat.le_trans (Nat.le_max_left n m) first, List.forall_mem_cons.mpr ⟨?_, rest⟩⟩
    exact Nat.le_trans (Nat.le_max_right n m) first

theorem placement_free (h : Heap) (bytes : Nat) (moved : Option Address)
    (taken : h.placement bytes moved ∈ h.liveAddresses) : moved = some (h.placement bytes moved) := by
  have other : ∀ a, a ∈ h.liveAddresses → a ∉ h.liveAddresses.filter (fun a => some a ≠ moved) →
      moved = some a := by
    intro a live kept
    by_cases same : some a = moved
    · exact same.symm
    · exact absurd (List.mem_filter.mpr ⟨live, decide_eq_true same⟩) kept
  refine other _ taken ?_
  simp only [placement]
  split
  · intro high
    exact Nat.not_succ_le_self _ ((le_foldl_max _ 0).2 _ high)
  · rename_i wish
    exact fun held => wish (.inr held)

/-! ### Postings -/

theorem Quiet.address (Q : h.Quiet h') (x : Occupant) : h'.address? x = h.address? x := by
  cases x with
  | block p =>
    have bare : ∀ b : Backing, b.bare.owned?.map Prod.fst = b.owned?.map Prod.fst := by
      intro b
      cases b <;> rfl
    have same := congrArg (Option.bind · (fun o => o.2.2.2.owned?.map Prod.fst)) (Q.peers p)
    simp only [Option.bind_map] at same
    simpa only [address?, Function.comp_def, Peer.outline, bare] using same
  | sentinel c =>
    have same := congrArg (Option.bind · (fun books => books.2.2.2)) (Q.contexts c)
    simp only [Option.bind_map] at same
    exact same
  | buffer b => exact Q.buffers b

theorem address_modifyContext (h : Heap) (c : ContextId) (f : Context → Context)
    (sentinel : ∀ ctx, (f ctx).sentinel = ctx.sentinel) (x : Occupant) :
    (h.modifyContext c f).address? x = h.address? x := by
  cases x with
  | sentinel i =>
    have same := congrArg (Option.bind · id)
      (h.contexts.map_find_modify c i f (·.sentinel) (fun ctx _ => sentinel ctx))
    simp only [Option.bind_map] at same
    exact same
  | _ => rfl

theorem address_modifyRegistry (h : Heap) (c : ContextId) (f : Registry → Registry) (x : Occupant) :
    (h.modifyRegistry c f).address? x = h.address? x :=
  address_modifyContext h c (fun ctx => { ctx with registry := f ctx.registry }) (fun _ => rfl) x

theorem address_modifyPeer_ne (h : Heap) {p : PeerId} (f : Peer → Peer) (other : x ≠ .block p) :
    (h.modifyPeer p f).address? x = h.address? x := by
  cases x with
  | block i =>
    have differs : p ≠ i := fun same => other (congrArg Occupant.block same.symm)
    exact congrArg (Option.bind · _) (h.peers.find_modify_ne f differs)
  | _ => rfl

theorem address_modifyPeer (h : Heap) (p : PeerId) {f : Peer → Peer} (backing : ∀ q, (f q).backing = q.backing)
    (x : Occupant) : (h.modifyPeer p f).address? x = h.address? x := by
  cases x with
  | block i =>
    have same := congrArg (Option.bind · (fun b => b.owned?.map Prod.fst))
      (h.peers.map_find_modify p i f (·.backing) (fun q _ => backing q))
    simp only [Option.bind_map] at same
    exact same
  | _ => rfl

theorem address_listed (h : Heap) (c : ContextId) (k : Handle) (o : Object) (site : String)
    (x : Occupant) : (h.listed c k o site).address? x = h.address? x := by
  cases x with
  | block i =>
    simp only [address?, peers_listed, Store.find_add]
    split
    · rename_i fresh
      rw [← fresh, Store.find_fresh]
      rfl
    · rfl
  | sentinel i =>
    rw [address?, sentinelOf?, Heap.listed, contexts_point]
    exact (address_modifyRegistry (h.entered c k o site) c _ (.sentinel i)).trans
      (address_modifyRegistry { h with peers := _ } c _ (.sentinel i))
  | buffer b => cases o <;> rfl

/-- At most one thing comes to lie elsewhere, and nothing lies there. -/
theorem Posting.address (P : Posting T h h') : ∃ y, (∀ x, x ≠ y → h'.address? x = h.address? x) ∧
    ∀ a, h'.address? y = some a → h.address? y = some a ∨ a ∉ h.liveAddresses := by
  cases P with
  | quiet Q => exact ⟨.block ⟨0⟩, fun x _ => Q.address x, fun a there => .inl (Q.address _ ▸ there)⟩
  | context config unclaimed =>
    have same : ∀ x, ({ h with contexts := h.contexts.add (.ofConfig config) } : Heap).address? x =
        h.address? x := by
      intro x
      cases x with
      | sentinel c =>
        simp only [address?, sentinelOf?, Store.find_add]
        split
        · rename_i fresh
          rw [← fresh, Store.find_fresh]
          rfl
        · rfl
      | _ => rfl
    exact ⟨.block ⟨0⟩, fun x _ => same x, fun a there => .inl (same _ ▸ there)⟩
  | listed c ctx o site found own bare free =>
    exact ⟨.block ⟨0⟩, fun x _ => address_listed .., fun a there => .inl (address_listed .. ▸ there)⟩
  | buffer foreign n nonzero free =>
    refine ⟨.buffer h.buffers.fresh, fun x other => ?_, fun a there => .inr ?_⟩
    · cases x with
      | buffer b =>
        have differs : h.buffers.fresh ≠ b := fun same => other (congrArg Occupant.buffer same.symm)
        simp only [address?, Store.find_add, if_neg differs]
      | _ => rfl
    · rw [address?, Store.find_add_fresh] at there
      cases there
      exact free
  | sentinel c ctx address n found none nonzero free =>
    refine ⟨.sentinel c, fun x other => ?_, fun a there => .inr ?_⟩
    · cases x with
      | sentinel i =>
        have differs : c ≠ i := fun same => other (congrArg Occupant.sentinel same.symm)
        exact congrArg (Option.bind · _) (h.contexts.find_modify_ne _ differs)
      | _ => rfl
    · rw [address?, sentinelOf?, modifyContext, Store.find_modify_self, found] at there
      cases there
      exact free
  | backed c o p q b own pointer found offered allowed =>
    refine ⟨.block p, fun x other => ?_, fun a there => ?_⟩
    · exact (address_modifyPeer_ne _ _ other).trans (address_modifyRegistry h c _ x)
    · have shown : b.owned?.map Prod.fst = some a := by
        rw [address?, rebacked, modifyPeer, Store.find_modify_self] at there
        rw [show (h.modifyRegistry c _).peers = h.peers from rfl, found] at there
        exact there
      cases b with
      | owned address bytes =>
        -- An address in use is offered again only to the block that lies there: a reallocation in place.
        cases shown
        by_cases live : address ∈ h.liveAddresses
        · refine .inl ?_
          rw [address?, found]
          exact offered.2 live
        · exact .inr live
      | _ => cases shown

theorem Posting.spaced (P : Posting T h h') (A : h.Spaced) : h'.Spaced := by
  obtain ⟨y, others, free⟩ := P.address
  exact A.move y (fun x other a there => others x other ▸ there) free

theorem Posted.spaced (P : Posted T h h') (A : h.Spaced) : h'.Spaced :=
  P.carry A (fun _ last => last.spaced)

end Heap
end VectorHeap
