import Mathlib.Logic.Relation
import VectorHeap.Proofs.Accounting

/-! Postings: what operations enter into the books of a heap.
The books are the registries and reclaimers of contexts and where blocks lie. Most of what operations
do is quiet, the books do not show it. The rest is made of a few postings: a context, a foreign
buffer or a sentinel comes up, an object gets a peer, a peer takes on other contents. -/
namespace VectorHeap

def Backing.bare : Backing → Backing
  | .owned address _ => .owned address []
  | b => b

def Peer.outline (q : Peer) : Handle × Object × Bool × Backing :=
  (q.handle, q.owner, q.released, q.backing.bare)

def Context.books (ctx : Context) : Config × Registry × Reclaimer × Option Address :=
  (ctx.config, ctx.registry, ctx.reclaimer, ctx.sentinel)

namespace Heap

variable {T : VectorId → Backing → Prop} {h h' h'' : Heap} {c : ContextId} {o : Object} {p : PeerId}

theorem objects_of_same (vectors : h'.vectors = h.vectors) (strings : h'.strings = h.strings) (o : Object) :
    h'.contextOf? o = h.contextOf? o ∧ h'.peerOf? o = h.peerOf? o := by
  cases o <;> simp only [contextOf?, peerOf?, vectors, strings, and_self]

/-! ### What the books do not show -/

structure Quiet (h h' : Heap) : Prop where
  contexts : ∀ c, (h'.contexts.find? c).map Context.books = (h.contexts.find? c).map Context.books
  peers : ∀ p, (h'.peers.find? p).map Peer.outline = (h.peers.find? p).map Peer.outline
  buffers : ∀ b, (h'.buffers.find? b).map (·.address) = (h.buffers.find? b).map (·.address)
  pointers : ∀ o, h'.peerOf? o = h.peerOf? o
  own : ∀ o c, h.contextOf? o = some c → h'.contextOf? o = some c

namespace Quiet

theorem refl (h : Heap) : h.Quiet h where
  contexts _ := rfl
  peers _ := rfl
  buffers _ := rfl
  pointers _ := rfl
  own _ _ := id

theorem trans (Q : h.Quiet h') (Q' : h'.Quiet h'') : h.Quiet h'' where
  contexts c := (Q'.contexts c).trans (Q.contexts c)
  peers p := (Q'.peers p).trans (Q.peers p)
  buffers b := (Q'.buffers b).trans (Q.buffers b)
  pointers o := (Q'.pointers o).trans (Q.pointers o)
  own o c own := Q'.own o c (Q.own o c own)

theorem of_same (contexts : h'.contexts = h.contexts) (vectors : h'.vectors = h.vectors)
    (strings : h'.strings = h.strings) (peers : h'.peers = h.peers) (buffers : h'.buffers = h.buffers) :
    h.Quiet h' where
  contexts _ := by rw [contexts]
  peers _ := by rw [peers]
  buffers _ := by rw [buffers]
  pointers o := (objects_of_same vectors strings o).2
  own o _ own := (objects_of_same vectors strings o).1.trans own

theorem modifyContext (h : Heap) (c : ContextId) (f : Context → Context)
    (books : ∀ ctx, h.contexts.find? c = some ctx → (f ctx).books = ctx.books) :
    h.Quiet (h.modifyContext c f) where
  contexts i := h.contexts.map_find_modify c i f Context.books books
  peers _ := rfl
  buffers _ := rfl
  pointers o := by cases o <;> rfl
  own o _ own := by cases o <;> exact own

theorem modifyPeer (h : Heap) (p : PeerId) (f : Peer → Peer)
    (outline : ∀ q, h.peers.find? p = some q → (f q).outline = q.outline) :
    h.Quiet (h.modifyPeer p f) where
  contexts _ := rfl
  peers i := h.peers.map_find_modify p i f Peer.outline outline
  buffers _ := rfl
  pointers o := by cases o <;> rfl
  own o _ own := by cases o <;> exact own

theorem modifyBuffer (h : Heap) (b : BufferId) (f : ForeignBuffer → ForeignBuffer)
    (address : ∀ foreign, (f foreign).address = foreign.address) : h.Quiet (h.modifyBuffer b f) where
  contexts _ := rfl
  peers _ := rfl
  buffers i := h.buffers.map_find_modify b i f (·.address) (fun foreign _ => address foreign)
  pointers o := by cases o <;> rfl
  own o _ own := by cases o <;> exact own

theorem modifyVector (h : Heap) (v : VectorId) (f : VectorCell → VectorCell)
    (peer : ∀ cell, (f cell).peer = cell.peer) (context : ∀ cell, (f cell).context = cell.context) :
    h.Quiet (h.modifyVector v f) where
  contexts _ := rfl
  peers _ := rfl
  buffers _ := rfl
  pointers o := by
    cases o with
    | vector w =>
      have same := congrArg (Option.bind · id)
        (h.vectors.map_find_modify v w f (·.peer) (fun cell _ => peer cell))
      simp only [Option.bind_map] at same
      exact same
    | string s => rfl
  own o _ own := by
    cases o with
    | vector w =>
      exact (h.vectors.map_find_modify v w f (·.context) (fun cell _ => context cell)).trans own
    | string s => exact own

theorem addVector (h : Heap) {cell : VectorCell} (bare : cell.peer = none) :
    h.Quiet { h with vectors := h.vectors.add cell } where
  contexts _ := rfl
  peers _ := rfl
  buffers _ := rfl
  pointers o := by
    cases o with
    | vector w =>
      simp only [peerOf?, Store.find_add]
      split
      · rename_i same
        rw [← same, Store.find_fresh]
        exact bare
      · rfl
    | string s => rfl
  own o _ own := by
    cases o with
    | vector w =>
      obtain ⟨old, found, rfl⟩ := Option.map_eq_some_iff.mp own
      exact congrArg (Option.map _) (Store.find_add_of_find cell found)
    | string s => exact own

theorem addString (h : Heap) {cell : StringCell} (bare : cell.peer = none) :
    h.Quiet { h with strings := h.strings.add cell } where
  contexts _ := rfl
  peers _ := rfl
  buffers _ := rfl
  pointers o := by
    cases o with
    | vector w => rfl
    | string s =>
      simp only [peerOf?, Store.find_add]
      split
      · rename_i same
        rw [← same, Store.find_fresh]
        exact bare
      · rfl
  own o _ own := by
    cases o with
    | vector w => exact own
    | string s =>
      obtain ⟨old, found, rfl⟩ := Option.map_eq_some_iff.mp own
      exact congrArg (Option.map _) (Store.find_add_of_find cell found)

theorem discarded (h : Heap) (cell : VectorCell) : h.Quiet (h.discarded cell) where
  contexts _ := rfl
  peers _ := rfl
  buffers _ := rfl
  pointers o := by
    cases o with
    | vector w => simp only [peerOf?, find_discarded]
    | string s => rfl
  own o _ own := by
    cases o with
    | vector w => simpa only [contextOf?, find_discarded] using own
    | string s => exact own

theorem overwrite (h : Heap) (p : PeerId) (offset : Nat) (data : Bytes) :
    h.Quiet (h.overwrite p offset data) := by
  unfold Heap.overwrite
  split
  · rename_i address bytes there
    refine modifyPeer h p _ (fun q found => ?_)
    rw [found] at there
    have backing : q.backing = .owned address bytes := there
    simp only [Peer.outline, backing, Backing.bare]
  · exact modifyBuffer h _ _ (fun _ => rfl)
  · exact refl h
  · exact refl h

end Quiet

/-! ### Postings -/

/-- Where new contents of a peer of a context may lie. A block that moves may stay. -/
def Offers (h : Heap) (c : ContextId) (old : Backing) : Backing → Prop
  | .unallocated => False
  | .empty address => h.sentinelOf? c = some address
  | .owned address _ =>
    address ≠ 0 ∧ (address ∈ h.liveAddresses → old.owned?.map Prod.fst = some address)
  | .external address b => (h.buffers.find? b).map (·.address) = some address

/-- A peer takes on other contents, and a registry counts and indexes them in place of the old. -/
def rebacked (h : Heap) (c : ContextId) (p : PeerId) (q : Peer) (b : Backing) : Heap :=
  (h.modifyRegistry c (fun r => (r.dropContents q.backing).addContents q.handle b)).modifyPeer p
    (fun peer => { peer with backing := b })

/-- Native contents are replaced only for some vectors and only by some others, and so is foreign memory
taken on. -/
inductive Posting (T : VectorId → Backing → Prop) (h : Heap) : Heap → Prop
  | quiet {h' : Heap} (Q : h.Quiet h') : Posting T h h'
  | context (config : Config) (unclaimed : ∀ o, h.contextOf? o ≠ some h.contexts.fresh) :
    Posting T h { h with contexts := h.contexts.add (.ofConfig config) }
  | buffer (foreign : ForeignBuffer) (n : Nat) (nonzero : foreign.address ≠ 0)
      (free : foreign.address ∉ h.liveAddresses) :
    Posting T h { h with allocations := n, buffers := h.buffers.add foreign }
  | sentinel (c : ContextId) (ctx : Context) (address : Address) (n : Nat)
      (found : h.contexts.find? c = some ctx) (none : ctx.sentinel = none) (nonzero : address ≠ 0)
      (free : address ∉ h.liveAddresses) :
    Posting T h ({ h with allocations := n }.modifyContext c
      (fun ctx => { ctx with sentinel := some address }))
  | listed (c : ContextId) (ctx : Context) (o : Object) (site : String)
      (found : h.contexts.find? c = some ctx) (own : h.contextOf? o = some c)
      (bare : h.peerOf? o = none) (free : ctx.registry.peer? ctx.registry.nextHandle = none) :
    Posting T h (h.listed c ctx.registry.nextHandle o site)
  | backed (c : ContextId) (o : Object) (p : PeerId) (q : Peer) (b : Backing)
      (own : h.contextOf? o = some c) (pointer : h.peerOf? o = some p)
      (found : h.peers.find? p = some q) (offered : h.Offers c q.backing b)
      (allowed : (q.backing.isAllocated = true ∨ ∃ a i, b = .external a i) →
        ∃ v, o = .vector v ∧ T v b) :
    Posting T h (h.rebacked c p q b)

abbrev Posted (T : VectorId → Backing → Prop) : Heap → Heap → Prop := Relation.ReflTransGen (Posting T)

theorem Quiet.posted (Q : h.Quiet h') : Posted T h h' := .single (.quiet Q)

theorem Posted.carry {P : Heap → Prop} (posted : Posted T h h') (start : P h)
    (step : ∀ {g g'}, Posted T h g → Posting T g g' → P g → P g') : P h' := by
  induction posted with
  | refl => exact start
  | tail first last ih => exact step first last ih

/-! ### What postings keep -/

theorem Posting.peerOf (P : Posting T h h') (pointer : h.peerOf? o = some p) :
    h'.peerOf? o = some p := by
  cases P with
  | quiet Q => exact (Q.pointers o).trans pointer
  | context config unclaimed => cases o <;> exact pointer
  | buffer foreign n nonzero free => cases o <;> exact pointer
  | sentinel c ctx address n found none nonzero free => cases o <;> exact pointer
  | listed c ctx o' site found own bare free =>
    rw [peerOf_listed (isAlive_iff_contextOf.mpr ⟨c, own⟩), if_neg]
    · exact pointer
    · rintro rfl
      exact absurd (bare.symm.trans pointer) (by simp)
  | backed c o' p' q b own pointer' found offered allowed => cases o <;> exact pointer

theorem Posting.contextOf (P : Posting T h h') (own : h.contextOf? o = some c) :
    h'.contextOf? o = some c := by
  cases P with
  | quiet Q => exact Q.own o c own
  | context config unclaimed => cases o <;> exact own
  | buffer foreign n nonzero free => cases o <;> exact own
  | sentinel c' ctx address n found none nonzero free => cases o <;> exact own
  | listed c' ctx o' site found own' bare free => exact (contextOf_listed ..).trans own
  | backed c' o' p q b own' pointer found offered allowed => cases o <;> exact own

theorem Posting.sentinelOf (P : Posting T h h') {a : Address} (made : h.sentinelOf? c = some a) :
    h'.sentinelOf? c = some a := by
  have same : ∀ {i : ContextId} {f : Context → Context} {g : Heap}, g.contexts = h.contexts →
      (∀ ctx, (f ctx).sentinel = ctx.sentinel) → (g.modifyContext i f).sentinelOf? c = some a := by
    intro i f g contexts sentinel
    have kept := congrArg (Option.bind · id)
      (g.contexts.map_find_modify i c f (·.sentinel) (fun ctx _ => sentinel ctx))
    simp only [Option.bind_map] at kept
    exact kept.trans (contexts ▸ made)
  cases P with
  | quiet Q =>
    have kept := congrArg (Option.bind · (fun books => books.2.2.2)) (Q.contexts c)
    simp only [Option.bind_map] at kept
    exact kept.trans made
  | context config unclaimed =>
    obtain ⟨ctx, found, address⟩ := Option.bind_eq_some_iff.mp made
    exact Option.bind_eq_some_iff.mpr ⟨ctx, Store.find_add_of_find _ found, address⟩
  | buffer foreign n nonzero free => exact made
  | sentinel c' ctx address n found none nonzero free =>
    have other : c' ≠ c := by
      rintro rfl
      rw [sentinelOf?, found] at made
      exact absurd (none.symm.trans made) (by simp)
    exact (congrArg (Option.bind · _) (Store.find_modify_ne _ _ other)).trans made
  | listed c' ctx o site found own bare free =>
    by_cases same : c' = c
    · subst same
      rw [sentinelOf?, found] at made
      rw [sentinelOf?, context_listed found]
      exact made
    · rw [sentinelOf?, context_listed_ne same]
      exact made
  | backed c' o p q b own pointer found offered allowed => exact same rfl (fun _ => rfl)

theorem Posting.buffers (P : Posting T h h') {b : BufferId} {a : Address}
    (there : (h.buffers.find? b).map (·.address) = some a) :
    (h'.buffers.find? b).map (·.address) = some a := by
  cases P with
  | quiet Q => exact (Q.buffers b).trans there
  | context config unclaimed => exact there
  | buffer foreign n nonzero free =>
    obtain ⟨old, found, rfl⟩ := Option.map_eq_some_iff.mp there
    exact congrArg (Option.map _) (Store.find_add_of_find foreign found)
  | sentinel c ctx address n found none nonzero free => exact there
  | listed c ctx o site found own bare free => cases o <;> exact there
  | backed c o p q b' own pointer found offered allowed => exact there

theorem Posted.peerOf (P : Posted T h h') (pointer : h.peerOf? o = some p) :
    h'.peerOf? o = some p :=
  P.carry pointer (fun _ last => last.peerOf)

theorem Posted.contextOf (P : Posted T h h') (own : h.contextOf? o = some c) :
    h'.contextOf? o = some c :=
  P.carry own (fun _ last => last.contextOf)

end Heap
end VectorHeap
