import VectorHeap.Proofs.Heap.Addresses
import VectorHeap.Proofs.Run

/-! Regions: identities that belong together. Objects of a region refer to nothing outside of it. Two heaps
that show the same in a region may differ outside of it, where one of them may have fewer objects. -/
namespace VectorHeap

/-! ### Stores -/

namespace Store

variable {k : Kind} {α : Type} {N : Id k → Prop} {P : α → Prop} {s s' s'' t : Store k α} {i : Id k}

def AgreesIn (N : Id k → Prop) (s t : Store k α) : Prop := ∀ i, N i → t.find? i = s.find? i

def Encloses (N : Id k → Prop) (P : α → Prop) (s : Store k α) : Prop :=
  ∀ i a, N i → s.find? i = some a → P a

/-- A store and one with less in it, which show the same in a region. Identities that were not given out
are of the region. -/
structure Matches (N : Id k → Prop) (P : α → Prop) (s t : Store k α) : Prop where
  next : t.next = s.next
  ahead : ∀ i : Id k, s.next ≤ i.index → N i
  closed : s.Encloses N P
  part : ∀ i, t.find? i = s.find? i ∨ ¬ N i ∧ t.find? i = none

structure Within (N : Id k → Prop) (s s' : Store k α) : Prop where
  next : s.next ≤ s'.next
  same : s.AgreesIn (fun i => ¬ N i) s'

theorem Within.refl (s : Store k α) : s.Within N s := ⟨Nat.le_refl _, fun _ _ => rfl⟩

theorem Within.trans (first : s.Within N s') (second : s'.Within N s'') : s.Within N s'' :=
  ⟨Nat.le_trans first.next second.next,
    fun i outside => (second.same i outside).trans (first.same i outside)⟩

theorem Within.modify (s : Store k α) (own : N i) (f : α → α) : s.Within N (s.modify i f) :=
  ⟨Nat.le_refl _, fun _ outside => find_modify_ne s f (fun same => outside (Eq.mp (congrArg N same) own))⟩

theorem Within.erase (s : Store k α) (own : N i) : s.Within N (s.erase i) :=
  ⟨Nat.le_refl _, fun j outside =>
    (find_erase s i j).trans (if_neg (fun same => outside (Eq.mp (congrArg N same) own)))⟩

namespace Matches

theorem find (M : s.Matches N P t) (own : N i) : t.find? i = s.find? i :=
  (M.part i).elim id (fun other => absurd own other.1)

theorem fresh (M : s.Matches N P t) : t.fresh = s.fresh := congrArg Id.mk M.next

theorem own_fresh (M : s.Matches N P t) : N s.fresh := M.ahead _ (Nat.le_refl _)

theorem within_add (M : s.Matches N P t) (a : α) : s.Within N (s.add a) :=
  ⟨Nat.le_succ _, fun i outside =>
    (find_add s a i).trans (if_neg (fun same => outside (Eq.mp (congrArg N same) M.own_fresh)))⟩

theorem left (M : s.Matches N P t) : s.Matches N P s :=
  ⟨rfl, M.ahead, M.closed, fun _ => .inl rfl⟩

theorem right (M : s.Matches N P t) : t.Matches N P t where
  next := rfl
  ahead i given := M.ahead i (M.next ▸ given)
  closed i a own found := M.closed i a own ((M.find own).symm.trans found)
  part _ := .inl rfl

theorem add (M : s.Matches N P t) {a : α} (good : P a) : (s.add a).Matches N P (t.add a) where
  next := congrArg (· + 1) M.next
  ahead i given := M.ahead i (Nat.le_of_succ_le given)
  closed i b own found := by
    rcases eq_or_find_of_find_add found with ⟨_, rfl⟩ | old
    · exact good
    · exact M.closed i b own old
  part i := by
    rw [find_add, find_add, M.fresh]
    split
    · exact .inl rfl
    · exact M.part i

theorem modify (M : s.Matches N P t) (f : α → α)
    (good : ∀ a, N i → s.find? i = some a → P a → P (f a)) :
    (s.modify i f).Matches N P (t.modify i f) where
  next := M.next
  ahead := M.ahead
  closed j b own found := by
    by_cases same : i = j
    · subst same
      obtain ⟨a, before, rfl⟩ := Option.map_eq_some_iff.mp ((find_modify_self ..).symm.trans found)
      exact good a own before (M.closed i a own before)
    · exact M.closed j b own ((find_modify_ne s f same).symm.trans found)
  part j := by
    by_cases same : i = j
    · subst same
      rw [find_modify_self, find_modify_self]
      exact (M.part i).imp (congrArg _) (fun other => ⟨other.1, by rw [other.2]; rfl⟩)
    · rw [find_modify_ne _ f same, find_modify_ne _ f same]
      exact M.part j

theorem erase (M : s.Matches N P t) (i : Id k) : (s.erase i).Matches N P (t.erase i) where
  next := M.next
  ahead := M.ahead
  closed j b own found := M.closed j b own (find_of_find_erase found).1
  part j := by
    rw [find_erase, find_erase]
    split
    · exact .inl rfl
    · exact M.part j

end Matches

end Store

/-! ### Regions -/

/-- References and foreign buffers that belong together. -/
@[ext] structure Region where
  refs : Ref → Prop
  buffers : BufferId → Prop

namespace Region

variable (S : Region)

def all (rs : List Ref) : Prop := ∀ r ∈ rs, S.refs r

def Backs (b : Backing) : Prop := ∀ address i, b = .external address i → S.buffers i

/-! What objects of a region refer to, strongly or not. -/

def StringIn (cell : StringCell) : Prop := S.refs (.context cell.context) ∧ S.all cell.refs

structure PeerIn (q : Peer) : Prop where
  owner : S.refs (.ofObject q.owner)
  pins : ∀ o ∈ q.pins, S.refs (.ofObject o)
  backing : S.Backs q.backing

def FrameIn (b : Frame) : Prop := ∀ name value, b.find? name = some value → S.all value.refs

end Region

namespace Region

variable {S : Region}

theorem all_vector_iff {cell : VectorCell} : S.all cell.refs ↔ S.refs (.context cell.context) ∧
    (∀ p, cell.peer = some p → S.refs (.peer p)) ∧ ∀ b, cell.buffer = some b → S.all b.refs := by
  constructor
  · intro all
    exact ⟨all _ (Heap.mem_vector_refs.mpr (.inl rfl)),
      fun p hp => all _ (Heap.mem_vector_refs.mpr (.inr (.inl ⟨p, hp, rfl⟩))),
      fun b hb r hr => all r (Heap.mem_vector_refs.mpr (.inr (.inr ⟨b, hb, hr⟩)))⟩
  · rintro ⟨context, peer, buffer⟩ r hr
    rcases Heap.mem_vector_refs.mp hr with rfl | ⟨p, hp, rfl⟩ | ⟨b, hb, hr⟩
    · exact context
    · exact peer p hp
    · exact buffer b hb r hr

theorem all_string_iff {cell : StringCell} :
    S.all cell.refs ↔ ∀ p, cell.peer = some p → S.refs (.peer p) := by
  constructor
  · exact fun all p hp => all _ (Heap.mem_string_refs.mpr ⟨p, hp, rfl⟩)
  · intro peer r hr
    obtain ⟨p, hp, rfl⟩ := Heap.mem_string_refs.mp hr
    exact peer p hp

theorem all_context_iff {ctx : Context} : S.all ctx.refs ↔
    (∀ s, ctx.naString = some s → S.refs (.string s)) ∧
    (∀ k p, ctx.registry.peer? k = some p → S.refs (.peer p)) ∧
    ∀ p ∈ ctx.reclaimer.queue, S.refs (.peer p) := by
  constructor
  · intro all
    exact ⟨fun s hs => all _ (Heap.mem_context_refs.mpr (.inl ⟨s, hs, rfl⟩)),
      fun k p entry => all _ (Heap.mem_context_refs.mpr (.inr (.inl ⟨k, p, entry, rfl⟩))),
      fun p hp => all _ (Heap.mem_context_refs.mpr (.inr (.inr ⟨p, hp, rfl⟩)))⟩
  · rintro ⟨naString, entries, queue⟩ r hr
    rcases Heap.mem_context_refs.mp hr with ⟨s, hs, rfl⟩ | ⟨k, p, entry, rfl⟩ | ⟨p, hp, rfl⟩
    · exact naString s hs
    · exact entries k p entry
    · exact queue p hp

theorem all_elem_iff {e : Elem} : S.all e.refs ↔ ∀ o, e.object? = some o → S.refs (.ofObject o) := by
  simp only [all, Elem.refs, List.mem_map, Option.mem_toList]
  refine ⟨fun all o ho => all _ ⟨o, ho, rfl⟩, fun all => ?_⟩
  rintro r ⟨o, ho, rfl⟩
  exact all o ho

theorem all_buffer_iff {b : Buffer} : S.all b.refs ↔ ∀ e ∈ b.slots, S.all e.refs := by
  constructor
  · intro all e he
    exact all_elem_iff.mpr (fun o ho => all _ (Heap.mem_buffer_refs.mpr ⟨e, he, o, ho, rfl⟩))
  · intro slots r hr
    obtain ⟨e, he, o, ho, rfl⟩ := Heap.mem_buffer_refs.mp hr
    exact all_elem_iff.mp (slots e he) o ho

theorem all_toElem {o : Object} (own : S.refs (.ofObject o)) : S.all o.toElem.refs :=
  all_elem_iff.mpr (fun o' ho => by
    rw [Object.object_toElem] at ho
    exact Option.some.inj ho ▸ own)

theorem all_ofValue (t : InlineType) (x : t.Value) : S.all (Elem.ofValue t x).refs :=
  all_elem_iff.mpr (fun o ho => by cases t <;> exact absurd ho (by simp [Elem.ofValue, Elem.object?]))

theorem all_of_registry {ctx : Context} {r : Registry} (all : S.all ctx.refs)
    (entries : ∀ k p, r.peer? k = some p → ctx.registry.peer? k = some p ∨ S.refs (.peer p)) :
    S.all { ctx with registry := r }.refs := by
  obtain ⟨naString, old, queue⟩ := all_context_iff.mp all
  exact all_context_iff.mpr
    ⟨naString, fun k p entry => (entries k p entry).elim (old k p) id, queue⟩

theorem all_addContents {ctx : Context} (all : S.all ctx.refs) (k : Handle) (b : Backing) :
    S.all { ctx with registry := ctx.registry.addContents k b }.refs :=
  all_of_registry all (fun i _ entry =>
    .inl ((congrArg (fun t => t.find? i) (accounts_addContents ctx.registry k b).1).symm.trans entry))

theorem all_dropContents {ctx : Context} (all : S.all ctx.refs) (b : Backing) :
    S.all { ctx with registry := ctx.registry.dropContents b }.refs :=
  all_of_registry all (fun i _ entry =>
    .inl ((congrArg (fun t => t.find? i) (accounts_dropContents ctx.registry b).1).symm.trans entry))

theorem all_enter {ctx : Context} (all : S.all ctx.refs) (k : Handle) {p : PeerId}
    (own : S.refs (.peer p)) (site : String) :
    S.all { ctx with registry := ctx.registry.draw.enter k p site }.refs := by
  refine all_of_registry all (fun i q entry => ?_)
  replace entry : (ctx.registry.peers.insert k p).find? i = some q := entry
  rw [Table.find_insert] at entry
  split at entry
  · cases entry
    exact .inr own
  · exact .inl entry

theorem mem_pinAt {pins : List Object} {slot : Nat} {o o' : Object} (pin : o ∈ pinAt pins slot o') :
    o ∈ pins ∨ o = o' := by
  unfold pinAt at pin
  split at pin
  · exact List.mem_or_eq_of_mem_set pin
  · exact (List.mem_append.mp pin).imp id List.mem_singleton.mp

theorem mem_pinFrom {pins os : List Object} {slot : Nat} {o : Object} (pin : o ∈ pinFrom pins slot os) :
    o ∈ pins ∨ o ∈ os := by
  induction os generalizing pins slot with
  | nil => exact .inl pin
  | cons o' os ih =>
    rcases ih pin with pin | later
    · exact (mem_pinAt pin).imp id (fun same => List.mem_cons.mpr (.inl same))
    · exact .inr (List.mem_cons_of_mem _ later)

end Region

/-! ### Heaps -/

namespace Heap

variable {S : Region} {h h' h'' g g' g'' : Heap} {c : ContextId} {v : VectorId} {s : StringId}
  {p : PeerId} {f : FrameId} {b : BufferId}

structure AgreesIn (S : Region) (h g : Heap) : Prop where
  contexts : h.contexts.AgreesIn (fun c => S.refs (.context c)) g.contexts
  vectors : h.vectors.AgreesIn (fun v => S.refs (.vector v)) g.vectors
  strings : h.strings.AgreesIn (fun s => S.refs (.string s)) g.strings
  peers : h.peers.AgreesIn (fun p => S.refs (.peer p)) g.peers
  frames : h.frames.AgreesIn (fun f => S.refs (.frame f)) g.frames
  buffers : h.buffers.AgreesIn S.buffers g.buffers

theorem AgreesIn.has (A : h.AgreesIn S g) {r : Ref} (own : S.refs r) : g.has r = h.has r := by
  cases r with
  | context c => exact congrArg Option.isSome (A.contexts c own)
  | vector v => exact congrArg Option.isSome (A.vectors v own)
  | string s => exact congrArg Option.isSome (A.strings s own)
  | peer p => exact congrArg Option.isSome (A.peers p own)
  | frame f => exact congrArg Option.isSome (A.frames f own)

structure Matches (S : Region) (h g : Heap) : Prop where
  contexts : h.contexts.Matches (fun c => S.refs (.context c)) (fun ctx => S.all ctx.refs) g.contexts
  vectors : h.vectors.Matches (fun v => S.refs (.vector v)) (fun cell => S.all cell.refs) g.vectors
  strings : h.strings.Matches (fun s => S.refs (.string s)) S.StringIn g.strings
  peers : h.peers.Matches (fun p => S.refs (.peer p)) S.PeerIn g.peers
  frames : h.frames.Matches (fun f => S.refs (.frame f)) S.FrameIn g.frames
  buffers : h.buffers.Matches S.buffers (fun _ => True) g.buffers

structure Within (S : Region) (h h' : Heap) : Prop where
  contexts : h.contexts.Within (fun c => S.refs (.context c)) h'.contexts
  vectors : h.vectors.Within (fun v => S.refs (.vector v)) h'.vectors
  strings : h.strings.Within (fun s => S.refs (.string s)) h'.strings
  peers : h.peers.Within (fun p => S.refs (.peer p)) h'.peers
  frames : h.frames.Within (fun f => S.refs (.frame f)) h'.frames
  buffers : h.buffers.Within S.buffers h'.buffers

theorem Within.refl (h : Heap) : h.Within S h :=
  ⟨.refl _, .refl _, .refl _, .refl _, .refl _, .refl _⟩

theorem Within.trans (first : h.Within S h') (second : h'.Within S h'') : h.Within S h'' :=
  ⟨first.contexts.trans second.contexts, first.vectors.trans second.vectors,
    first.strings.trans second.strings, first.peers.trans second.peers,
    first.frames.trans second.frames, first.buffers.trans second.buffers⟩

theorem Matches.left (M : h.Matches S g) : h.Matches S h :=
  ⟨M.contexts.left, M.vectors.left, M.strings.left, M.peers.left, M.frames.left, M.buffers.left⟩

theorem Matches.right (M : h.Matches S g) : g.Matches S g :=
  ⟨M.contexts.right, M.vectors.right, M.strings.right, M.peers.right, M.frames.right, M.buffers.right⟩

theorem Matches.address (M : h.Matches S g) {x : Occupant} {a : Address} (there : g.address? x = some a) :
    h.address? x = some a := by
  cases x with
  | block p =>
    rcases M.peers.part p with same | ⟨_, none⟩
    · rwa [address?, same] at there
    · rw [address?, none] at there
      exact absurd there (by simp)
  | sentinel c =>
    rcases M.contexts.part c with same | ⟨_, none⟩
    · rwa [address?, sentinelOf?, same] at there
    · rw [address?, sentinelOf?, none] at there
      exact absurd there (by simp)
  | buffer b =>
    rcases M.buffers.part b with same | ⟨_, none⟩
    · rwa [address?, same] at there
    · rw [address?, none] at there
      exact absurd there (by simp)

/-! Both heaps show the same of the region. -/

theorem Matches.agrees (M : h.Matches S g) : h.AgreesIn S g :=
  ⟨fun _ => M.contexts.find, fun _ => M.vectors.find, fun _ => M.strings.find, fun _ => M.peers.find,
    fun _ => M.frames.find, fun _ => M.buffers.find⟩

theorem Matches.has (M : h.Matches S g) {r : Ref} (own : S.refs r) : g.has r = h.has r :=
  M.agrees.has own

theorem Matches.isAlive (M : h.Matches S g) {o : Object} (own : S.refs (.ofObject o)) :
    g.isAlive o = h.isAlive o := by
  rw [← has_ofObject, ← has_ofObject, M.has own]

theorem Matches.contents (M : h.Matches S g) {b : Backing} (own : S.Backs b) :
    g.contents b = h.contents b := by
  cases b with
  | external address i =>
    exact congrArg (fun o => (o.map (·.bytes)).getD []) (M.buffers.find (own address i rfl))
  | _ => rfl

/-! ### Changes within a region -/

/-- Two heaps become others, and both keep to a region. -/
structure Twinned (S : Region) (h g h' g' : Heap) : Prop where
  matched : h'.Matches S g'
  left : h.Within S h'
  right : g.Within S g'

theorem Matches.stay (M : h.Matches S g) : Twinned S h g h g := ⟨M, .refl h, .refl g⟩

theorem Twinned.trans (T : Twinned S h g h' g') (T' : Twinned S h' g' h'' g'') :
    Twinned S h g h'' g'' :=
  ⟨T'.matched, T.left.trans T'.left, T.right.trans T'.right⟩

theorem Matches.aside (M : h.Matches S g) (supply supply' : Nat → Nat → Option Address) (n n' : Nat)
    (panics panics' : List Panic) :
    Twinned S h g { h with supply, allocations := n, panics }
      { g with supply := supply', allocations := n', panics := panics' } where
  matched := ⟨M.contexts, M.vectors, M.strings, M.peers, M.frames, M.buffers⟩
  left := ⟨.refl _, .refl _, .refl _, .refl _, .refl _, .refl _⟩
  right := ⟨.refl _, .refl _, .refl _, .refl _, .refl _, .refl _⟩

/-- A change that keeps to a region and does the same in both heaps. No memory is asked for. -/
structure Steady (S : Region) (k : Heap → Heap) : Prop where
  matched : ∀ h g : Heap, h.Matches S g → (k h).Matches S (k g)
  within : ∀ h : Heap, h.Matches S h → h.Within S (k h)
  plain : ∀ h : Heap, h.Matches S h → ∀ supply, k { h with supply } = { k h with supply }
  asked : ∀ h : Heap, h.Matches S h → (k h).allocations = h.allocations

namespace Steady

variable {k l : Heap → Heap}

theorem twinned (C : Steady S k) (M : h.Matches S g) : Twinned S h g (k h) (k g) :=
  ⟨C.matched h g M, C.within h M.left, C.within g M.right⟩

theorem stay : Steady S (fun h => h) := ⟨fun _ _ M => M, fun h _ => .refl h, fun _ _ _ => rfl, fun _ _ => rfl⟩

theorem congr (C : Steady S k) (same : ∀ h, l h = k h) : Steady S l := funext same ▸ C

theorem comp (C : Steady S k) (C' : Steady S l) : Steady S (fun h => l (k h)) where
  matched h g M := C'.matched _ _ (C.matched h g M)
  within h M := (C.within h M).trans (C'.within _ (C.matched h h M))
  plain h M supply := by rw [C.plain h M supply, C'.plain _ (C.matched h h M) supply]
  asked h M := (C'.asked _ (C.matched h h M)).trans (C.asked h M)

theorem read {β : Type} {Q : β → Prop} (key : Heap → β) {k : β → Heap → Heap}
    (same : ∀ h g : Heap, h.Matches S g → key g = key h) (good : ∀ h : Heap, h.Matches S h → Q (key h))
    (rest : ∀ b, Q b → Steady S (k b)) : Steady S (fun h => k (key h) h) where
  matched h g M := by
    rw [same h g M]
    exact (rest _ (good h M.left)).matched h g M
  within h M := (rest _ (good h M)).within h M
  plain h M supply := by
    rw [same h { h with supply } (M.aside h.supply supply _ _ h.panics h.panics).matched]
    exact (rest _ (good h M)).plain h M supply
  asked h M := (rest _ (good h M)).asked h M

theorem modifyContext (own : S.refs (.context c)) (k : Context → Context)
    (good : ∀ ctx, S.all ctx.refs → S.all (k ctx).refs) : Steady S (·.modifyContext c k) where
  matched _ _ M := { M with contexts := M.contexts.modify k (fun ctx _ _ => good ctx) }
  within h _ := { Within.refl h with contexts := .modify _ own k }
  plain _ _ _ := rfl
  asked _ _ := rfl

theorem modifyVector (own : S.refs (.vector v)) (k : VectorCell → VectorCell)
    (good : ∀ cell, S.all cell.refs → S.all (k cell).refs) : Steady S (·.modifyVector v k) where
  matched _ _ M := { M with vectors := M.vectors.modify k (fun cell _ _ => good cell) }
  within h _ := { Within.refl h with vectors := .modify _ own k }
  plain _ _ _ := rfl
  asked _ _ := rfl

theorem modifyString (own : S.refs (.string s)) (k : StringCell → StringCell)
    (good : ∀ cell, S.StringIn cell → S.StringIn (k cell)) : Steady S (·.modifyString s k) where
  matched _ _ M := { M with strings := M.strings.modify k (fun cell _ _ => good cell) }
  within h _ := { Within.refl h with strings := .modify _ own k }
  plain _ _ _ := rfl
  asked _ _ := rfl

theorem modifyPeer (own : S.refs (.peer p)) (k : Peer → Peer)
    (good : ∀ q, S.PeerIn q → S.PeerIn (k q)) : Steady S (·.modifyPeer p k) where
  matched _ _ M := { M with peers := M.peers.modify k (fun q _ _ => good q) }
  within h _ := { Within.refl h with peers := .modify _ own k }
  plain _ _ _ := rfl
  asked _ _ := rfl

theorem modifyFrame (own : S.refs (.frame f)) (k : Frame → Frame)
    (good : ∀ b, S.FrameIn b → S.FrameIn (k b)) : Steady S (·.modifyFrame f k) where
  matched _ _ M := { M with frames := M.frames.modify k (fun b _ _ => good b) }
  within h _ := { Within.refl h with frames := .modify _ own k }
  plain _ _ _ := rfl
  asked _ _ := rfl

theorem modifyBuffer (own : S.buffers b) (k : ForeignBuffer → ForeignBuffer) :
    Steady S (·.modifyBuffer b k) where
  matched _ _ M := { M with buffers := M.buffers.modify k (fun _ _ _ _ => trivial) }
  within h _ := { Within.refl h with buffers := .modify _ own k }
  plain _ _ _ := rfl
  asked _ _ := rfl

theorem modifyRegistry (own : S.refs (.context c)) (k : Registry → Registry)
    (good : ∀ ctx : Context, S.all ctx.refs → S.all { ctx with registry := k ctx.registry }.refs) :
    Steady S (·.modifyRegistry c k) :=
  modifyContext own (fun ctx => { ctx with registry := k ctx.registry }) good

/-- The memory behind a backing overwritten, which is in the peer or in a foreign buffer. -/
def overwrittenAt (p : PeerId) (offset : Nat) (data : Bytes) (backing : Backing) (h : Heap) : Heap :=
  match backing with
  | .owned address bytes =>
    h.modifyPeer p (fun q => { q with backing := .owned address (bytes.overwrite offset data) })
  | .external _ b =>
    h.modifyBuffer b (fun buffer => { buffer with bytes := buffer.bytes.overwrite offset data })
  | .empty _ | .unallocated => h

theorem overwrittenAt_steady (own : S.refs (.peer p)) (offset : Nat) (data : Bytes) {backing : Backing}
    (foreign : S.Backs backing) : Steady S (overwrittenAt p offset data backing) := by
  cases backing with
  | owned address bytes =>
    refine modifyPeer own _ (fun q good => ⟨good.owner, good.pins, fun _ _ other => ?_⟩)
    cases other
  | external address b => exact modifyBuffer (foreign address b rfl) _
  | empty address => exact stay
  | unallocated => exact stay

theorem overwrite (own : S.refs (.peer p)) (offset : Nat) (data : Bytes) :
    Steady S (·.overwrite p offset data) := by
  refine read (Q := S.Backs) (k := overwrittenAt p offset data)
    (fun h => ((h.peers.find? p).map (·.backing)).getD .unallocated)
    (fun h g M => by rw [M.peers.find own]) (fun h M => ?_)
    (fun _ foreign => overwrittenAt_steady own offset data foreign)
  cases found : h.peers.find? p with
  | none => exact fun _ _ other => by cases other
  | some q => exact (M.peers.closed p q own found).backing

theorem without {r : Ref} (own : S.refs r) : Steady S (·.without r) where
  matched _ _ M := by
    cases r with
    | context c => exact { M with contexts := M.contexts.erase c }
    | vector v => exact { M with vectors := M.vectors.erase v }
    | string s => exact { M with strings := M.strings.erase s }
    | frame f => exact { M with frames := M.frames.erase f }
    | peer p => exact { M with peers := M.peers.erase p }
  within h _ := by
    cases r with
    | context c => exact { Within.refl h with contexts := .erase _ own }
    | vector v => exact { Within.refl h with vectors := .erase _ own }
    | string s => exact { Within.refl h with strings := .erase _ own }
    | frame f => exact { Within.refl h with frames := .erase _ own }
    | peer p => exact { Within.refl h with peers := .erase _ own }
  plain _ _ _ := by cases r <;> rfl
  asked _ _ := by cases r <;> rfl

end Steady

end Heap
end VectorHeap
