import VectorHeap.Proofs.Confinement

/-! What operations on objects and their contents are confined to: the objects, and what these refer to. -/
namespace VectorHeap

namespace Op

variable {α β : Type} {S : Region} {c : ContextId} {v : VectorId} {s : StringId} {p : PeerId}
  {f : FrameId} {o : Object}

/-! ### Peers -/

theorem register_confined (context : S.refs (.context c)) (own : S.refs (.ofObject o)) (site : String) :
    Confined S (register c o site) (fun p => S.refs (.peer p)) := by
  refine (context_confined context).bind (fun ctx _ => ?_)
  refine (addPeer_confined ⟨own, by simp, by simp [Region.Backs]⟩).bind (fun p new => ?_)
  refine (modifyRegistry_confined context _ (fun ctx all => Region.all_enter all _ new site)).bind
    (fun _ _ => .guard (fun _ => ?_))
  exact (modifyRegistry_confined context _ (fun _ => id)).bind (fun _ _ => .pure new)

theorem ensureVectorPeer_confined (own : S.refs (.vector v)) :
    Confined S (ensureVectorPeer v) (fun p => S.refs (.peer p)) := by
  refine (vector_confined own).bind (fun cell all => ?_)
  obtain ⟨context, peer, _⟩ := Region.all_vector_iff.mp all
  cases hp : cell.peer with
  | some p => exact .pure (peer p hp)
  | none =>
    refine (register_confined (o := .vector v) context own _).bind (fun p new => ?_)
    refine (modifyVector_confined own _ (fun cell all => ?_)).bind (fun _ _ => .pure new)
    obtain ⟨context, _, buffer⟩ := Region.all_vector_iff.mp all
    exact Region.all_vector_iff.mpr ⟨context, fun i hi => Option.some.inj hi ▸ new, buffer⟩

theorem ensureStringPeer_confined (own : S.refs (.string s)) :
    Confined S (ensureStringPeer s) (fun p => S.refs (.peer p)) := by
  refine (string_confined own).bind (fun cell ⟨context, all⟩ => ?_)
  have peer := Region.all_string_iff.mp all
  have there : ∀ h g : Heap, h.Matches S g →
      g.contexts.contains cell.context = h.contexts.contains cell.context :=
    fun _ _ M => M.has (r := .context cell.context) context
  refine .get_bind (fun h g M => by simp only [there h g M]) (fun h _ => ?_)
  refine .ite (fun _ => ?_) (fun _ => .bind .throw (Q := fun _ => False) nofun)
  cases hp : cell.peer with
  | some p => exact .pure (peer p hp)
  | none =>
    refine (register_confined (o := .string s) context own _).bind (fun p new => ?_)
    refine (modifyString_confined own _ (fun cell ⟨context, _⟩ => ?_)).bind (fun _ _ => .pure new)
    exact ⟨context, Region.all_string_iff.mpr (fun i hi => Option.some.inj hi ▸ new)⟩

theorem ensurePeer_confined (own : S.refs (.ofObject o)) :
    Confined S (ensurePeer o) (fun p => S.refs (.peer p)) := by
  cases o with
  | vector v => exact ensureVectorPeer_confined own
  | string s => exact ensureStringPeer_confined own

theorem ensureHandle_confined (own : S.refs (.ofObject o)) :
    Confined S (ensureHandle o) (fun _ => True) :=
  (ensurePeer_confined own).bind (fun _ peer => (peer_confined peer).bind (fun _ _ => .pure trivial))

def Held (S : Region) (elements : List (Object × Handle)) : Prop :=
  ∀ e ∈ elements, S.refs (.ofObject e.1)

theorem handlesOf_confined {os : List Object} (own : ∀ o ∈ os, S.refs (.ofObject o)) :
    Confined S (handlesOf os) (Held S) := by
  induction os with
  | nil => exact .pure nofun
  | cons o os ih =>
    obtain ⟨first, later⟩ := List.forall_mem_cons.mp own
    refine (ensureHandle_confined first).bind (fun handle _ => (ih later).bind (fun rest held => .pure ?_))
    exact List.forall_mem_cons.mpr ⟨first, held⟩

theorem bufferObjects_own {b : Buffer} (all : S.all b.refs) :
    ∀ o ∈ bufferObjects b, S.refs (.ofObject o) := by
  intro o ho
  obtain ⟨e, he, object⟩ := List.mem_filterMap.mp ho
  exact all _ (Heap.mem_buffer_refs.mpr ⟨e, he, o, object, rfl⟩)

theorem elementHandles_confined (own : S.refs (.vector v)) : Confined S (elementHandles v) (Held S) := by
  refine (vector_confined own).bind (fun cell all => ?_)
  obtain ⟨_, _, buffer⟩ := Region.all_vector_iff.mp all
  cases hb : cell.buffer with
  | some b => exact handlesOf_confined (bufferObjects_own (buffer b hb))
  | none => exact .pure nofun

/-- A handle names an object of the region, since its entry is one of the context's. -/
theorem resolve_matches {h g : Heap} (M : h.Matches S g) (own : S.refs (.context c)) (k : Handle) :
    g.resolve? c k = h.resolve? c k ∧ ∀ o, h.resolve? c k = some o → S.refs (.ofObject o) := by
  unfold Heap.resolve?
  rw [M.contexts.find own]
  cases found : h.contexts.find? c with
  | none => exact ⟨rfl, nofun⟩
  | some ctx =>
    simp only [Option.bind_eq_bind, Option.bind_some]
    cases entry : ctx.registry.peer? k with
    | none => exact ⟨rfl, nofun⟩
    | some p =>
      have peer : S.refs (.peer p) :=
        (Region.all_context_iff.mp (M.contexts.closed c ctx own found)).2.1 k p entry
      simp only [Option.bind_some]
      rw [M.peers.find peer]
      cases there : h.peers.find? p with
      | none => exact ⟨rfl, nofun⟩
      | some q =>
        have owner := (M.peers.closed p q peer there).owner
        simp only [Option.bind_some, M.isAlive owner, true_and]
        intro o same
        split at same
        · cases same
          exact owner
        · cases same

theorem lookup_confined (own : S.refs (.context c)) (k : Handle) :
    Confined S (lookup c k) (fun o => S.refs (.ofObject o)) := by
  refine (context_confined own).bind (fun ctx _ => ?_)
  refine .get_bind (fun h g M => by simp only [(resolve_matches M own k).1]) (fun h M => ?_)
  cases there : h.resolve? c k with
  | some o => exact .pure ((resolve_matches M own k).2 o there)
  | none => exact .throw

/-! ### Native contents -/

theorem contentsTo_confined {q : Peer} (own : S.Backs q.backing) (stop : Nat) :
    Confined S (contentsTo q stop) (fun _ => True) :=
  .get_bind (fun h g M => by simp only [M.contents own]) (fun _ _ => .guard (fun _ => .pure trivial))

theorem accessed_confined (own : S.refs (.peer p)) (width slot count : Nat) :
    Confined S (accessed p width slot count) (fun _ => True) := by
  refine Confined.bind (Q := S.PeerIn) ?_ (fun q good => .guard (fun _ => contentsTo_confined good.backing _))
  exact (peer_confined own).bind (fun q good => .guard (fun _ => .pure good))

theorem readSlot_confined (own : S.refs (.peer p)) (width slot : Nat) :
    Confined S (readSlot p width slot) (fun _ => True) :=
  (accessed_confined own width slot 1).bind (fun _ _ => .pure trivial)

theorem readHandle_confined (own : S.refs (.peer p)) (slot : Nat) :
    Confined S (readHandle p slot) (fun _ => True) :=
  (readSlot_confined own 8 slot).bind (fun _ _ => .pure trivial)

theorem writeSlots_confined (own : S.refs (.peer p)) (width slot : Nat) (data : Bytes) :
    Confined S (writeSlots p width slot data) (fun _ => True) :=
  (accessed_confined own width slot _).bind (fun _ _ => .modify (.overwrite own _ data))

theorem writeHandles_confined (own : S.refs (.peer p)) (slot : Nat) {elements : List (Object × Handle)}
    (held : Held S elements) : Confined S (writeHandles p slot elements) (fun _ => True) := by
  refine .ite (fun _ => .pure trivial) (fun _ => (writeSlots_confined own 8 slot _).bind (fun _ _ => ?_))
  refine modifyPeer_confined own _ (fun q good => ⟨good.owner, fun o pin => ?_, good.backing⟩)
  rcases Region.mem_pinFrom pin with old | new
  · exact good.pins o old
  · obtain ⟨e, he, rfl⟩ := List.mem_map.mp new
    exact held e he

theorem fillMissing_confined (own : S.refs (.peer p)) (type : ElemType) (slot count : Nat) :
    Confined S (fillMissing p type slot count) (fun _ => True) := by
  unfold fillMissing
  split
  · exact .ite (fun _ => .pure trivial) (fun _ => writeSlots_confined own _ _ _)
  · exact .pure trivial

theorem sentinel_confined (own : S.refs (.context c)) : Confined S (sentinel c) (fun _ => True) := by
  refine (context_confined own).bind (fun ctx _ => ?_)
  cases ctx.sentinel with
  | some address => exact .pure trivial
  | none =>
    exact (Confined.request (Block.allocate_eq sentinelSize) none).bind (fun _ _ =>
      .bind (modifyContext_confined own _ (fun _ => id)) (fun _ _ => .pure trivial))

theorem emptyAddress_confined (own : S.refs (.context c)) (slots : Nat) :
    Confined S (emptyAddress c slots) (fun _ => True) :=
  .ite (fun _ => sentinel_confined own) (fun _ => .pure trivial)

theorem install_confined (context : S.refs (.context c)) (own : S.refs (.peer p)) {backing : Backing}
    (good : S.Backs backing) (length capacity : Nat) {pins : List Object}
    (pinned : ∀ o ∈ pins, S.refs (.ofObject o)) :
    Confined S (install c p backing length capacity pins) (fun _ => True) := by
  refine (peer_confined own).bind (fun q _ => .guard (fun _ => ?_))
  refine .bind (modifyPeer_confined own _ (fun q old => ⟨old.owner, pinned, good⟩)) (fun _ _ => ?_)
  exact modifyRegistry_confined context _ (fun ctx all => Region.all_addContents all _ backing)

theorem byteSize_confined (width slots : Nat) : Confined S (byteSize width slots) (fun _ => True) :=
  .ite (fun _ => .throw) (fun _ => .pure trivial)

theorem ownBlock_confined (old : Bytes) (size : Nat) (moved : Option Address) :
    Confined S (ownBlock old size moved) S.Backs :=
  (Confined.request (Block.reallocate_eq old size) moved).bind (fun _ _ => .pure nofun)

theorem resizedBacking_confined {q : Peer} (good : S.Backs q.backing) (width size : Nat)
    (empty : Address) : Confined S (resizedBacking q width size empty) S.Backs := by
  refine .ite (fun _ => .pure nofun) (fun _ => ?_)
  cases hb : q.backing with
  | external address b =>
    exact (contentsTo_confined good _).bind (fun _ _ => ownBlock_confined ..)
  | _ => exact ownBlock_confined ..

theorem reallocate_confined (context : S.refs (.context c)) (own : S.refs (.peer p)) (width slots : Nat)
    (empty : Address) : Confined S (reallocate c p width slots empty) (fun _ => True) := by
  refine (byteSize_confined width slots).bind (fun size _ => (peer_confined own).bind (fun q good => ?_))
  refine (resizedBacking_confined good.backing width size empty).bind (fun backing new => ?_)
  refine (modifyRegistry_confined context _ (fun ctx all => ?_)).bind (fun _ _ => ?_)
  · exact Region.all_addContents (Region.all_dropContents all q.backing) q.handle backing
  · exact modifyPeer_confined own _ (fun q old => ⟨old.owner, old.pins, new⟩)

/-! ### Strings and vectors that are made -/

theorem newString_confined (own : S.refs (.context c)) (text : String) :
    Confined S (newString c text) (fun s => S.refs (.string s)) :=
  addString_confined ⟨own, Region.all_string_iff.mpr nofun⟩

theorem naString_confined (own : S.refs (.context c)) :
    Confined S (naString c) (fun s => S.refs (.string s)) := by
  refine (context_confined own).bind (fun ctx all => ?_)
  cases hs : ctx.naString with
  | some s => exact .pure ((Region.all_context_iff.mp all).1 s hs)
  | none =>
    refine .bind (addString_confined ⟨own, Region.all_string_iff.mpr nofun⟩) (fun s new => ?_)
    refine (modifyContext_confined own _ (fun ctx all => ?_)).bind (fun _ _ => .pure new)
    obtain ⟨_, entries, queue⟩ := Region.all_context_iff.mp all
    exact Region.all_context_iff.mpr ⟨fun i hi => Option.some.inj hi ▸ new, entries, queue⟩

theorem materialize_confined (own : S.refs (.string s)) :
    Confined S (materialize s) (fun _ => True) := by
  refine (string_confined own).bind (fun cell ⟨context, _⟩ => ?_)
  refine (ensureStringPeer_confined own).bind (fun p peer => (peer_confined peer).bind (fun q _ => ?_))
  have answer : Confined S (return (← Op.peer p).backing.address) (fun _ => True) :=
    (peer_confined peer).bind (fun _ _ => .pure trivial)
  refine .ite (fun _ => answer) (fun _ => ?_)
  refine (ownBlock_confined _ _ none).bind (fun backing good => ?_)
  exact (install_confined context peer good _ _ (by simp)).bind (fun _ _ => answer)

theorem isNA_matches {h g : Heap} (M : h.Matches S g) {e : Elem} (own : S.all e.refs) :
    g.isNA e = h.isNA e := by
  cases e with
  | str s =>
    exact congrArg (fun o => (o.map (·.isNA)).getD false)
      (M.strings.find (Region.all_elem_iff.mp own _ rfl))
  | _ => rfl

theorem complete_matches {h g : Heap} (M : h.Matches S g) {b : Buffer} (own : S.all b.refs) (n : Nat) :
    b.complete? g.isNA n = b.complete? h.isNA n := by
  have used : ∀ k, (b.slots.take k).any g.isNA = (b.slots.take k).any h.isNA := fun k => by
    have slots := Region.all_buffer_iff.mp own
    have same := fun e he => isNA_matches M (slots e (List.mem_of_mem_take (i := k) he))
    rw [Bool.eq_iff_iff, List.any_eq_true, List.any_eq_true]
    exact exists_congr (fun e => and_congr_right (fun he => by rw [same e he]))
  unfold Buffer.complete? Buffer.take?
  split
  · rfl
  · split
    · exact congrArg (fun missing => Except.ok (!missing)) (used n)
    · rfl

theorem overBuffer_confined (context : S.refs (.context c)) {b : Buffer} (own : S.all b.refs)
    (length : Nat) : Confined S (overBuffer c b length) (fun v => S.refs (.vector v)) := by
  refine .get_bind (fun h g M => by simp only [complete_matches M own]) (fun h _ => ?_)
  refine (Confined.ofPanic _ (fun _ _ => trivial)).bind (fun complete _ => addVector_confined ?_)
  exact Region.all_vector_iff.mpr ⟨context, nofun, fun b' same => Option.some.inj same ▸ own⟩

theorem newVector_confined (context : S.refs (.context c)) {b : Buffer} (own : S.all b.refs) :
    Confined S (newVector c b) (fun v => S.refs (.vector v)) :=
  overBuffer_confined context own b.capacity

theorem bufferOf_confined (type : ElemType) {es : List Elem} (own : ∀ e ∈ es, S.all e.refs) :
    Confined S (bufferOf type es) (fun b => S.all b.refs) := by
  unfold bufferOf Buffer.ofList?
  split
  · rename_i b made
    split at made
    · cases made
      exact .pure (Region.all_buffer_iff.mpr own)
    · cases made
  · exact .throw

theorem emptyList_confined (own : S.refs (.context c)) :
    Confined S (emptyList c) (fun v => S.refs (.vector v)) :=
  newVector_confined own (Region.all_buffer_iff.mpr (by simp [Buffer.empty]))

theorem emptyLists_confined (own : S.refs (.context c)) (n : Nat) :
    Confined S (emptyLists c n) (fun vs => ∀ v ∈ vs, S.refs (.vector v)) := by
  induction n with
  | zero => exact .pure nofun
  | succ n ih =>
    exact (emptyList_confined own).bind (fun v new => ih.bind (fun vs rest =>
      .pure (List.forall_mem_cons.mpr ⟨new, rest⟩)))

theorem fillers_confined (own : S.refs (.context c)) (type : ElemType) (count : Nat) :
    Confined S (fillers c type count) (fun es => ∀ e ∈ es, S.all e.refs) := by
  unfold fillers
  split
  · rename_i t _
    exact .pure (fun e he => (List.mem_replicate.mp he).2 ▸ Region.all_ofValue t t.na)
  · refine .ite (fun _ => .pure nofun) (fun _ => .ite (fun _ => ?_) (fun _ => ?_))
    · refine (naString_confined own).bind (fun s new => .pure (fun e he => ?_))
      exact (List.mem_replicate.mp he).2 ▸ Region.all_toElem (o := .string s) new
    · refine (emptyLists_confined own count).bind (fun vs new => .pure (fun e he => ?_))
      obtain ⟨v, hv, rfl⟩ := List.mem_map.mp he
      exact Region.all_toElem (o := .vector v) (new v hv)

theorem resizeBuffer_confined (context : S.refs (.context c)) {b : Buffer} (own : S.all b.refs) (n : Nat) :
    Confined S (resizeBuffer c b n) (fun b' => S.all b'.refs) := by
  refine (Confined.ofPanic _ (fun _ _ => trivial)).bind (fun _ _ => ?_)
  refine (fillers_confined context b.type _).bind (fun new good => ?_)
  cases made : b.refill? n new with
  | none => exact .throw
  | some b' =>
    unfold Buffer.refill? Buffer.ofList? at made
    split at made
    · cases made
      refine .pure (Region.all_buffer_iff.mpr (fun e he => ?_))
      rcases List.mem_append.mp he with old | added
      · exact Region.all_buffer_iff.mp own e (List.mem_of_mem_take old)
      · exact good e added
    · cases made

theorem withCapacity_confined (own : S.refs (.context c)) (type : ElemType) (length capacity : Nat) :
    Confined S (withCapacity c type length capacity) (fun v => S.refs (.vector v)) :=
  .guard (fun _ =>
    (resizeBuffer_confined own (Region.all_buffer_iff.mpr (by simp [Buffer.empty])) capacity).bind
      (fun _ good => overBuffer_confined own good length))

end Op
end VectorHeap
