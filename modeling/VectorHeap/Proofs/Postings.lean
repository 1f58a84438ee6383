import VectorHeap.Proofs.Adoption
import VectorHeap.Proofs.Bookkeeping
import VectorHeap.Proofs.Run

/-! What operations post: a peer for each object that gets a handle, contents for each peer that takes
some on, and a sentinel or a foreign buffer where one is made. -/
namespace VectorHeap.Op

variable {α β : Type} {T : VectorId → Backing → Prop} {h : Heap} {c : ContextId} {v : VectorId} {p : PeerId}
  {o : Object}

/-! ### Peers -/

theorem posts_of_register {op : Op PeerId} (site : String) (own : h.contextOf? o = some c)
    (bare : h.peerOf? o = none)
    (run : op h = match register c o site h with
      | .ok p h' => .ok p (h'.point o p)
      | .error f h' => .error f h') :
    Posts T op h (fun p h' => h'.peerOf? o = some p) := by
  have alive : h.isAlive o = true := Heap.isAlive_iff_contextOf.mpr ⟨c, own⟩
  cases found : h.contexts.find? c with
  | none =>
    have dead : register c o site h = .error .dead h := by
      unfold register
      rw [bind_run, context_run, found]
      rfl
    rw [dead] at run
    exact Outcome.of_error run (.inl .refl)
  | some ctx =>
    rw [register_run found] at run
    cases free : ctx.registry.peer? ctx.registry.nextHandle with
    | none =>
      rw [free] at run
      exact Outcome.of_ok run ⟨.single (.listed c ctx o site found own bare free),
        (Heap.peerOf_listed alive o).trans (if_pos rfl)⟩
    | some p =>
      rw [free] at run
      exact Outcome.of_error run (.inr ⟨⟨_, rfl⟩, h, .refl,
        .entered h c ctx o site found (Heap.issued_of_isAlive alive) bare rfl⟩)

theorem ensureVectorPeer_posts (v : VectorId) :
    Posts T (ensureVectorPeer v) h (fun p h' => h'.peerOf? (.vector v) = some p) := by
  refine .vector_bind (fun cell found => ?_)
  have pointer := Heap.peerOf_vector found
  cases hp : cell.peer with
  | some p => exact .pure (pointer.trans hp)
  | none =>
    refine posts_of_register (vectorSite cell) (by rw [Heap.contextOf?, found]; rfl)
      (pointer.trans hp) ((bind_run (register cell.context (.vector v) (vectorSite cell)) _ h).trans ?_)
    cases register cell.context (.vector v) (vectorSite cell) h <;> rfl

theorem ensureStringPeer_posts (s : StringId) :
    Posts T (ensureStringPeer s) h (fun p h' => h'.peerOf? (.string s) = some p) := by
  refine .string_bind (fun cell found => .still_bind .get (fun _ _ => ?_))
  have pointer := Heap.peerOf_string found
  refine .ite (fun _ => ?_) (fun _ => .still_bind (.throw _) nofun)
  cases hp : cell.peer with
  | some p => exact .pure (pointer.trans hp)
  | none =>
    refine posts_of_register (stringSite cell) (by rw [Heap.contextOf?, found]; rfl)
      (pointer.trans hp) ((bind_run (register cell.context (.string s) (stringSite cell)) _ h).trans ?_)
    cases register cell.context (.string s) (stringSite cell) h <;> rfl

theorem ensurePeer_posts (o : Object) : Posts T (ensurePeer o) h (fun p h' => h'.peerOf? o = some p) := by
  cases o with
  | vector v => exact ensureVectorPeer_posts v
  | string s => exact ensureStringPeer_posts s

theorem ensureHandle_posts (o : Object) : Posts T (ensureHandle o) h (fun _ _ => True) :=
  (ensurePeer_posts o).bind (fun p _ _ _ => .still_bind (.peer p) (fun _ _ => .pure trivial))

theorem handlesOf_posts (os : List Object) : Posts T (handlesOf os) h (fun _ _ => True) := by
  induction os generalizing h with
  | nil => exact .pure trivial
  | cons o os ih => exact (ensureHandle_posts o).bind (fun _ _ _ _ => ih.bind (fun _ _ _ _ => .pure trivial))

theorem elementHandles_posts (v : VectorId) : Posts T (elementHandles v) h (fun _ _ => True) := by
  refine .vector_bind (fun cell _ => ?_)
  cases cell.buffer with
  | some b => exact handlesOf_posts _
  | none => exact .pure trivial

/-! ### Where contents lie -/

theorem quiet_placed (h : Heap) : h.Quiet h.placed := .of_same rfl rfl rfl rfl rfl

theorem sentinel_posts (c : ContextId) :
    Posts T (sentinel c) h (fun a h' => h'.sentinelOf? c = some a) := by
  cases found : h.contexts.find? c with
  | none =>
    have dead : sentinel c h = .error .dead h := by
      unfold sentinel
      rw [bind_run, context_run, found]
      rfl
    exact Outcome.of_error dead (.inl .refl)
  | some ctx =>
    cases made : ctx.sentinel with
    | some a =>
      have shown : h.sentinelOf? c = some a := by
        rw [Heap.sentinelOf?, found]
        exact made
      exact Outcome.of_ok (sentinel_made found made) ⟨.refl, shown⟩
    | none =>
      have run := sentinel_unmade found made
      split at run
      · exact Outcome.of_error run (.inl (quiet_placed h).posted)
      · refine Outcome.of_ok run ⟨.single (.sentinel c ctx _ _ found made
          (Heap.placement_ne_zero h _ none) (fun taken => ?_)), ?_⟩
        · exact absurd (Heap.placement_free h _ none taken) (by simp)
        · exact congrArg (Option.bind · Context.sentinel)
            ((Store.find_modify_self _ c _).trans (congrArg (Option.map _) found))

theorem emptyAddress_posts (c : ContextId) (slots : Nat) :
    Posts T (emptyAddress c slots) h (fun a h' => slots = 0 → h'.sentinelOf? c = some a) := by
  refine .ite (fun _ => (sentinel_posts c).mono (fun _ _ _ made _ => made)) (fun some => ?_)
  exact .pure (fun none => absurd none some)

theorem ownBlock_posts (old : Bytes) (size : Nat) (moved : Option Address) (kept : Backing)
    (same : ∀ a, moved = some a → kept.owned?.map Prod.fst = some a) :
    Posts T (ownBlock old size moved) h (fun b h' => h'.Offers c kept b ∧ (∀ a i, b ≠ .external a i) ∧
      h' = h.placed) := by
  have quiet := quiet_placed h
  have run := ownBlock_run (h := h) old size moved
  split at run
  · exact Outcome.of_error run (.inl quiet.posted)
  · refine Outcome.of_ok run ⟨quiet.posted, ⟨h.placement_ne_zero _ moved, fun taken => ?_⟩, by simp, rfl⟩
    exact same _ (Heap.placement_free h _ moved taken)

/-! ### Contents -/

theorem install_posts {backing : Backing} (own : h.contextOf? o = some c)
    (pointer : h.peerOf? o = some p) (offered : h.Offers c .unallocated backing)
    (foreign : (∃ a i, backing = .external a i) → ∃ v, o = .vector v ∧ T v backing) (length capacity : Nat)
    (pins : List Object) :
    Posts T (install c p backing length capacity pins) h (fun _ _ => True) := by
  refine .peer_bind (fun q hq => .guard (fun bare => ?_))
  have none : q.backing = .unallocated := by
    cases hb : q.backing with
    | unallocated => rfl
    | _ => exact absurd (by rw [hb]; rfl) bare
  have posting : h.Posting T (h.rebacked c p q backing) := by
    refine .backed c o p q backing own pointer hq (none ▸ offered) ?_
    rintro (allocated | external)
    · exact absurd allocated bare
    · exact foreign external
  have posted : h.Posted T ((h.rebacked c p q backing).modifyPeer p
      (fun peer => { peer with length, capacity, pins })) :=
    .tail (.single posting) (.quiet (.modifyPeer _ p _ (fun _ _ => rfl)))
  refine Outcome.of_ok (a := ()) ?_ ⟨posted, trivial⟩
  simp only [Heap.rebacked, Heap.modifyPeer, Store.modify_modify, none]
  rfl

theorem resizedBacking_posts (q : Peer) (width size : Nat) (empty : Address)
    (shared : size = 0 → h.sentinelOf? c = some empty) :
    Posts T (resizedBacking q width size empty) h (fun b h' =>
      h'.Offers c q.backing b ∧ (∀ a i, b ≠ .external a i) ∧ (h' = h ∨ h' = h.placed)) := by
  have own : ∀ (old : Bytes) (moved : Option Address),
      (∀ a, moved = some a → q.backing.owned?.map Prod.fst = some a) →
      Posts T (ownBlock old size moved) h (fun b h' =>
        h'.Offers c q.backing b ∧ (∀ a i, b ≠ .external a i) ∧ (h' = h ∨ h' = h.placed)) := by
    intro old moved same
    exact (ownBlock_posts old size moved q.backing same).mono
      (fun _ _ _ o => ⟨o.1, o.2.1, .inr o.2.2⟩)
  refine .ite (fun zero => .pure ⟨shared zero, by simp, .inl rfl⟩) (fun _ => ?_)
  cases hb : q.backing with
  | owned a bytes =>
    rw [hb] at own
    exact own _ _ (fun _ same => same)
  | external a b =>
    rw [hb] at own
    refine .still_bind ?_ (fun kept _ => own _ none (by simp))
    exact Still.bind .get (fun _ => .guard (.pure _))
  | empty a =>
    rw [hb] at own
    exact own _ none (by simp)
  | unallocated =>
    rw [hb] at own
    exact own _ none (by simp)

theorem reallocate_posts {width slots : Nat} {empty : Address} (own : h.contextOf? (.vector v) = some c)
    (pointer : h.peerOf? (.vector v) = some p) (mine : ∀ b, (∀ a i, b ≠ .external a i) → T v b)
    (wide : width ≠ 0)
    (shared : slots = 0 → h.sentinelOf? c = some empty) :
    Posts T (reallocate c p width slots empty) h (fun _ _ => True) := by
  refine .still_bind (byteSize_still width slots) (fun size run => .peer_bind (fun q hq => ?_))
  have sized : size = 0 → slots = 0 := by
    rw [byteSize_run] at run
    split at run
    · cases run
    · cases run
      exact fun zero => (Nat.mul_eq_zero.mp zero).resolve_left wide
  refine Posts.bind (resizedBacking_posts (c := c) q width size empty (fun zero => shared (sized zero)))
    (fun b h₁ posted ⟨offered, domestic, same⟩ => ?_)
  have hq₁ : h₁.peers.find? p = some q := by rcases same with rfl | rfl <;> exact hq
  have moved : h₁.Posted T ((h₁.rebacked c p q b).modifyPeer p
      (fun peer => { peer with capacity := slots })) :=
    .tail (.single (.backed c (.vector v) p q b (posted.contextOf own) (posted.peerOf pointer) hq₁ offered
      (fun _ => ⟨v, rfl, mine b domestic⟩))) (.quiet (.modifyPeer _ p _ (fun _ _ => rfl)))
  refine Outcome.of_ok (a := ()) ?_ ⟨moved, trivial⟩
  simp only [Heap.rebacked, Heap.modifyPeer, Store.modify_modify]
  rfl

theorem writeSlots_posts (p : PeerId) (width slot : Nat) (data : Bytes) :
    Posts T (writeSlots p width slot data) h (fun _ _ => True) :=
  .still_bind (accessed_still ..) (fun _ _ => .modify (.overwrite h p _ data))

theorem writeHandles_posts (p : PeerId) (slot : Nat) (elements : List (Object × Handle)) :
    Posts T (writeHandles p slot elements) h (fun _ _ => True) := by
  refine .ite (fun _ => .pure trivial) (fun _ => ?_)
  exact (writeSlots_posts ..).bind (fun _ h₁ _ _ => .modify (.modifyPeer h₁ p _ (fun _ _ => rfl)))

theorem fillMissing_posts (p : PeerId) (type : ElemType) (slot count : Nat) :
    Posts T (fillMissing p type slot count) h (fun _ _ => True) := by
  unfold fillMissing
  split
  · exact .ite (fun _ => .pure trivial) (fun _ => writeSlots_posts ..)
  · exact .pure trivial

/-! ### Strings and vectors -/

theorem newString_posts (c : ContextId) (text : String) :
    Posts T (newString c text) h (fun _ _ => True) :=
  Outcome.of_ok rfl ⟨(Heap.Quiet.addString h rfl).posted, trivial⟩

theorem naString_posts (c : ContextId) : Posts T (naString c) h (fun _ _ => True) := by
  refine .context_bind (fun ctx _ => ?_)
  cases ctx.naString with
  | some s => exact .pure trivial
  | none =>
    let cell : StringCell := { context := c, text := "NA", isNA := true }
    have made : h.Quiet { h with strings := h.strings.add cell } := .addString h rfl
    have named : h.Quiet ({ h with strings := h.strings.add cell }.nameNA c h.strings.fresh) :=
      made.trans (.modifyContext _ c _ (fun _ _ => rfl))
    exact Outcome.of_ok rfl ⟨named.posted, trivial⟩

theorem overBuffer_posts (c : ContextId) (b : Buffer) (length : Nat) :
    Posts T (overBuffer c b length) h (fun _ _ => True) :=
  .still_bind .get (fun _ _ => .still_bind (.ofPanic _) (fun _ _ =>
    Outcome.of_ok rfl ⟨(Heap.Quiet.addVector h rfl).posted, trivial⟩))

theorem emptyLists_posts (c : ContextId) (n : Nat) : Posts T (emptyLists c n) h (fun _ _ => True) := by
  induction n generalizing h with
  | zero => exact .pure trivial
  | succ n ih => exact (overBuffer_posts ..).bind (fun _ _ _ _ => ih.bind (fun _ _ _ _ => .pure trivial))

theorem fillers_posts (c : ContextId) (type : ElemType) (count : Nat) :
    Posts T (fillers c type count) h (fun _ _ => True) := by
  unfold fillers
  split
  · exact .pure trivial
  · refine .ite (fun _ => .pure trivial) (fun _ => .ite (fun _ => ?_) (fun _ => ?_))
    · exact (naString_posts c).bind (fun _ _ _ _ => .pure trivial)
    · exact (emptyLists_posts c count).bind (fun _ _ _ _ => .pure trivial)

theorem resizeBuffer_posts (c : ContextId) (b : Buffer) (n : Nat) :
    Posts T (resizeBuffer c b n) h (fun _ _ => True) := by
  refine .still_bind (.ofPanic _) (fun _ _ => (fillers_posts ..).bind (fun new _ _ _ => ?_))
  cases b.refill? n new with
  | some b' => exact .pure trivial
  | none => exact .throw

theorem withCapacity_posts (c : ContextId) (type : ElemType) (length capacity : Nat) :
    Posts T (withCapacity c type length capacity) h (fun _ _ => True) :=
  .guard (fun _ => (resizeBuffer_posts ..).bind (fun _ _ _ _ => overBuffer_posts ..))

/-! ### Length and capacity -/

theorem setLength_posts (v : VectorId) (n : Nat) : Posts T (setLength v n) h (fun _ _ => True) := by
  refine .vector_bind (fun cell _ => .guard (fun _ => ?_))
  refine .modify_bind (.modifyVector h v _ (fun _ => rfl) (fun _ => rfl)) ?_
  cases cell.peer with
  | none => exact .pure trivial
  | some p =>
    refine .peer_bind (fun q _ => .ite (fun _ => ?_) (fun _ => .pure trivial))
    exact .modify (.modifyPeer _ p _ (fun _ _ => rfl))

theorem indirectFiller_posts (c : ContextId) (type : ElemType) :
    Posts T (indirectFiller c type) h (fun _ _ => True) :=
  .ite (fun _ => (naString_posts c).map) (fun _ => .map (overBuffer_posts ..))

theorem nativeFillers_posts (c : ContextId) (type : ElemType) (n : Nat) :
    Posts T (nativeFillers c type n) h (fun _ _ => True) := by
  induction n generalizing h with
  | zero => exact .pure trivial
  | succ n ih =>
    exact (indirectFiller_posts c type).bind (fun o _ _ _ => (ensureHandle_posts o).bind
      (fun _ _ _ _ => ih.bind (fun _ _ _ _ => .pure trivial)))

theorem resizeNative_posts {cell : VectorCell} (own : h.contextOf? (.vector v) = some cell.context)
    (pointer : h.peerOf? (.vector v) = some p) (mine : ∀ b, (∀ a i, b ≠ .external a i) → T v b)
    (n : Nat) (made : List (Object × Handle)) : Posts T (resizeNative v cell p n made) h (fun _ _ => True) := by
  refine (emptyAddress_posts cell.context n).bind (fun empty h₁ posted shared => ?_)
  refine (reallocate_posts (posted.contextOf own) (posted.peerOf pointer) mine
    (Nat.ne_of_gt cell.type.nativeWidth_pos) shared).bind (fun _ h₂ _ _ => ?_)
  have resized : ∀ g : Heap, Posts T (modify (·.modifyVector v (fun cell =>
      { cell with capacity := n }))) g (fun _ _ => True) :=
    fun g => .modify (.modifyVector g v _ (fun _ => rfl) (fun _ => rfl))
  refine .ite (fun _ => ?_) (fun _ => ?_)
  · refine (writeHandles_posts p cell.capacity made).bind (fun _ h₃ _ _ => ?_)
    exact .modify_bind (.modifyPeer h₃ p _ (fun _ _ => rfl)) (resized _)
  · exact (fillMissing_posts ..).bind (fun _ h₃ _ _ => resized h₃)

theorem capacityPass_posts (mine : ∀ b, (∀ a i, b ≠ .external a i) → T v b) (n : Nat)
    (made : List (Object × Handle)) :
    Posts T (capacityPass v n made) h (fun _ _ => True) := by
  refine .vector_bind (fun cell found => .guard (fun _ => ?_))
  cases cell.buffer with
  | some b =>
    refine (resizeBuffer_posts ..).bind (fun b' h₁ _ _ => ?_)
    exact .modify_bind (.modifyVector h₁ v _ (fun _ => rfl) (fun _ => rfl)) (.pure trivial)
  | none =>
    refine .still_bind (nativePeer_still cell) (fun p run => .ite (fun _ => ?_) (fun _ => ?_))
    · exact (nativeFillers_posts ..).bind (fun _ _ _ _ => .pure trivial)
    · have pointer : h.peerOf? (.vector v) = some p := by
        rw [Heap.peerOf_vector found]
        unfold nativePeer at run
        cases hp : cell.peer with
        | none => rw [hp] at run; cases run
        | some p' => rw [hp] at run; cases run; rfl
      refine (resizeNative_posts ?_ pointer mine n made).bind (fun _ _ _ _ => .pure trivial)
      rw [Heap.contextOf?, found]
      rfl

theorem setCapacity_posts (mine : ∀ b, (∀ a i, b ≠ .external a i) → T v b) (n : Nat) :
    Posts T (setCapacity v n) h (fun _ _ => True) :=
  .retry (fun _ _ => True) (fun made g _ => (capacityPass_posts mine n made).mono
    (fun r _ _ _ => by cases r <;> trivial)) _ trivial

/-! ### Writing -/

theorem storeAt_posts (v : VectorId) (cell : VectorCell) (i : Nat) (e : Elem)
    (assigned : Option Handle) : Posts T (storeAt v cell i e assigned) h (fun _ _ => True) := by
  refine .still_bind (managed_still cell) (fun buffer _ => ?_)
  cases buffer with
  | some b =>
    refine .still_bind (.ofPanic _) (fun b' _ => ?_)
    cases b' with
    | some b' => exact .modify_bind (.modifyVector h v _ (fun _ => rfl) (fun _ => rfl)) (.pure trivial)
    | none => exact .throw
  | none =>
    refine .still_bind (nativePeer_still cell) (fun p _ => ?_)
    cases e.object? with
    | none => exact (writeSlots_posts ..).bind (fun _ _ _ _ => .pure trivial)
    | some o =>
      cases assigned with
      | some k => exact (writeHandles_posts ..).bind (fun _ _ _ _ => .pure trivial)
      | none => exact (ensureHandle_posts o).bind (fun _ _ _ _ => .pure trivial)

theorem setPass_posts (v : VectorId) (i : Nat) (e : Elem) (assigned : Option Handle) :
    Posts T (setPass v i e assigned) h (fun _ _ => True) := by
  refine .vector_bind (fun cell _ => .still_bind (checkIndex_still cell i) (fun _ _ => ?_))
  have noted : Posts T (noteMissing v e) h (fun _ _ => True) := by
    refine .still_bind (.bind .get (fun _ => .pure _)) (fun _ _ => .ite (fun _ => ?_) (fun _ => ?_))
    · exact .modify (.modifyVector h v _ (fun _ => rfl) (fun _ => rfl))
    · exact .pure trivial
  exact noted.bind (fun _ _ _ _ => storeAt_posts v cell i e assigned)

theorem setElem_posts (v : VectorId) (i : Nat) (e : Elem) :
    Posts T (setElem v i e) h (fun _ _ => True) := by
  refine .vector_bind (fun cell _ => .still_bind (checkType_still ..) (fun _ _ => .guard (fun _ => ?_)))
  exact .retry (fun _ _ => True) (fun assigned g _ => (setPass_posts v i e assigned).mono
    (fun r _ _ _ => by cases r <;> trivial)) _ trivial

/-! ### Sharing and copies -/

theorem setSharing_posts (v : VectorId) (f : SharingState → SharingState) :
    Posts T (setSharing v f) h (fun _ _ => True) :=
  .vector_bind (fun _ _ =>
    .modify_bind (.modifyVector h v _ (fun _ => rfl) (fun _ => rfl)) (.pure trivial))

theorem markAllShared_posts (es : List Elem) : Posts T (markAllShared es) h (fun _ _ => True) := by
  induction es generalizing h with
  | nil => exact .pure trivial
  | cons e es ih =>
    cases e with
    | list w => exact (setSharing_posts w _).discard.bind (fun _ _ _ _ => ih)
    | _ => exact ih

theorem copy_posts (v : VectorId) : Posts T (copy v) h (fun _ _ => True) :=
  .vector_bind (fun cell _ => .still_bind (usedBuffer_still cell) (fun _ _ =>
    (markAllShared_posts _).bind (fun _ _ _ _ => overBuffer_posts ..)))

theorem writable_posts (v : VectorId) : Posts T (writable v) h (fun _ _ => True) :=
  .vector_bind (fun _ _ => .ite (fun _ => copy_posts v) (fun _ => .pure trivial))

/-! ### Promotion -/

theorem nativeBacking_posts (cell : VectorCell) (b : Buffer) (handles : List (Object × Handle)) :
    Posts T (nativeBacking cell b handles) h
      (fun backing h' => h'.Offers cell.context .unallocated backing ∧ ∀ a i, backing ≠ .external a i) := by
  refine .still_bind (byteSize_still ..) (fun size _ => .ite (fun _ => ?_) (fun _ => ?_))
  · exact .map ((sentinel_posts cell.context).mono (fun _ _ _ made => ⟨made, by simp⟩))
  · exact (ownBlock_posts _ _ none .unallocated (by simp)).mono (fun _ _ _ o => ⟨o.1, o.2.1⟩)

theorem moveOut_posts {cell : VectorCell} (own : h.contextOf? (.vector v) = some cell.context)
    (pointer : h.peerOf? (.vector v) = some p) (b : Buffer) (handles : List (Object × Handle)) :
    Posts T (moveOut v cell p b handles) h (fun _ _ => True) := by
  refine (nativeBacking_posts cell b handles).bind (fun backing h₁ posted ⟨offered, domestic⟩ => ?_)
  refine (install_posts (posted.contextOf own) (posted.peerOf pointer) offered ?_ _ _ _).bind
    (fun _ h₂ _ _ => ?_)
  · rintro ⟨a, i, external⟩
    exact absurd external (domestic a i)
  · refine .modify_bind (.modifyContext h₂ _ _ (fun _ _ => rfl)) (.modify ?_)
    exact .modifyVector _ v _ (fun _ => rfl) (fun _ => rfl)

theorem promotePass_posts (v : VectorId) (handles : List (Object × Handle)) :
    Posts T (promotePass v handles) h (fun _ _ => True) := by
  refine (ensureVectorPeer_posts v).bind (fun p h₁ _ pointer => ?_)
  refine .still_bind (.peer p) (fun q _ => .vector_bind (fun cell found => ?_))
  cases cell.buffer with
  | none => exact .pure trivial
  | some b =>
    refine .ite (fun _ => ?_) (fun _ => ?_)
    · exact (elementHandles_posts v).bind (fun _ _ _ _ => .pure trivial)
    · refine (moveOut_posts ?_ pointer b handles).bind (fun _ _ _ _ => .pure trivial)
      rw [Heap.contextOf?, found]
      rfl

theorem promote_posts (v : VectorId) : Posts T (promote v) h (fun _ _ => True) :=
  (elementHandles_posts v).bind (fun _ _ _ _ =>
    .retry (fun _ _ => True) (fun handles _ _ => (promotePass_posts v handles).mono
      (fun r _ _ _ => by cases r <;> trivial)) _ trivial)

theorem materialize_posts (s : StringId) : Posts T (materialize s) h (fun _ _ => True) := by
  refine .string_bind (fun cell found => (ensureStringPeer_posts s).bind (fun p h₁ posted pointer => ?_))
  have own : h₁.contextOf? (.string s) = some cell.context :=
    posted.contextOf (by rw [Heap.contextOf?, found]; rfl)
  have answer : ∀ g : Heap, Posts T (do return (← peer p).backing.address) g (fun _ _ => True) :=
    fun g => .still_bind (.peer p) (fun _ _ => .pure trivial)
  refine .still_bind (.peer p) (fun q _ => .ite (fun _ => answer _) (fun _ => ?_))
  refine (ownBlock_posts (c := cell.context) _ _ none .unallocated (by simp)).bind
    (fun backing h₂ posted' made => ?_)
  obtain ⟨offered, domestic, _⟩ := made
  refine (install_posts (posted'.contextOf own) (posted'.peerOf pointer) offered ?_ _ _ _).bind
    (fun _ h₃ _ _ => answer h₃)
  rintro ⟨a, i, external⟩
  exact absurd external (domestic a i)

/-! ### Foreign buffers -/

theorem newBuffer_posts (bytes : Bytes) : Posts T (newBuffer bytes) h (fun _ _ => True) := by
  refine Outcome.of_ok rfl ⟨.single (.buffer ⟨h.placement bytes.length none, bytes⟩
    (h.allocations + 1) (Heap.placement_ne_zero h _ none) (fun taken => ?_)), trivial⟩
  exact absurd (Heap.placement_free h _ none taken) (by simp)

/-- The peer of a vector that adopts. Where none can be assigned the vector is gone. -/
theorem announced_posts (h : Heap) (c : ContextId) (type : ElemType) (length : Nat) :
    Outcome (orDiscard h.vectors.fresh (ensureVectorPeer h.vectors.fresh)) (announced h c type length)
      (fun p h' => h.Posted T h' ∧ h'.peerOf? (.vector h.vectors.fresh) = some p ∧
        h'.contextOf? (.vector h.vectors.fresh) = some c ∧ h'.buffers = h.buffers)
      (fun f h' => h.Posted T h' ∨
        (∃ k, f = .panic (.registeredTwice k)) ∧ ∃ h₁, h.Posted T h₁ ∧ h₁.Refusal f h') := by
  have flip : h.Quiet (flipped h c type) := .modifyContext h c _ (fun _ _ => rfl)
  have announce : h.Quiet (announced h c type length) := flip.trans (.addVector _ rfl)
  have new : (announced h c type length).vectors.find? h.vectors.fresh =
      some (adopting c type length) := h.vectors.find_add_fresh _
  have own : (announced h c type length).contextOf? (.vector h.vectors.fresh) = some c := by
    rw [Heap.contextOf?, new]
    rfl
  cases found : h.contexts.find? c with
  | none =>
    have dead : (announced h c type length).contexts.find? c = none :=
      (h.contexts.find_modify_self c _).trans (by rw [found]; rfl)
    have run : orDiscard h.vectors.fresh (ensureVectorPeer h.vectors.fresh)
        (announced h c type length) =
        .error .dead ((flipped h c type).discarded (adopting c type length)) := by
      rw [orDiscard_run]
      have ensured : ensureVectorPeer h.vectors.fresh (announced h c type length) = _ :=
        vector_bind new _
      have stopped : register c (.vector h.vectors.fresh) (vectorSite (adopting c type length))
          (announced h c type length) = .error .dead (announced h c type length) := by
        unfold register
        rw [bind_run, context_run, dead]
        rfl
      rw [ensured.trans (bind_of_error stopped)]
      rfl
    exact Outcome.of_error run (.inl (flip.trans (.discarded _ _)).posted)
  | some ctx =>
    have context : (announced h c type length).contexts.find? c =
        some { ctx with switches := ctx.switches.flip type } :=
      (h.contexts.find_modify_self c _).trans (by rw [found]; rfl)
    have assigned := announced_peer found type length
    cases free : ctx.registry.peer? ctx.registry.nextHandle with
    | some p =>
      simp only [free, Option.isSome_some, if_true] at assigned
      refine Outcome.of_error assigned (.inr ⟨⟨_, rfl⟩, _, flip.posted,
        .discarded _ _ (adopting c type length) ?_⟩)
      exact .entered ((flipped h c type).discarded (adopting c type length)) c
        { ctx with switches := ctx.switches.flip type } (.vector h.vectors.fresh)
        (vectorSite (adopting c type length)) context (Nat.lt_succ_self _)
        (peerOf_withdrawn h c type length) rfl
    | none =>
      simp only [free, Option.isSome_none, Bool.false_eq_true, if_false] at assigned
      refine Outcome.of_ok assigned ⟨announce.posted.tail (.listed c
        { ctx with switches := ctx.switches.flip type } _ _ context own ?_ free), ?_, ?_, rfl⟩
      · exact (Heap.peerOf_vector new).trans rfl
      · exact (Heap.peerOf_listed (Heap.isAlive_iff_contextOf.mpr ⟨c, own⟩) _).trans (if_pos rfl)
      · exact (Heap.contextOf_listed ..).trans own

theorem adopt_posts (c : ContextId) (type : ElemType) (buffer : Option BufferId) (length : Nat) :
    Posts (fun v b => v = h.vectors.fresh ∧ ∃ a i, b = .external a i) (adopt c type buffer length) h
      (fun _ _ => True) := by
  refine .guard (fun _ => ?_)
  cases buffer with
  | none => exact .throw
  | some b =>
    refine .still_bind .get (fun g run => ?_)
    cases run
    refine .still_bind (.live _) (fun foreign run => ?_)
    have there : h.buffers.find? b = some foreign := eq_some_of_live run
    change Outcome (do
      let p ← orDiscard h.vectors.fresh (ensureVectorPeer h.vectors.fresh)
      install c p (.external foreign.address b) length length []
      return h.vectors.fresh : Op VectorId) (announced h c type length) _ _
    refine Outcome.bind (announced_posts h c type length)
      (fun p h₁ ⟨posted, pointer, own, buffers⟩ => Posts.since posted ?_)
    have offered : h₁.Offers c .unallocated (.external foreign.address b) := by
      rw [Heap.Offers, buffers, there]
      rfl
    refine Posts.bind (install_posts own pointer offered (fun _ => ⟨_, rfl, rfl, _, _, rfl⟩) _ _ _)
      (fun _ _ _ _ => .pure trivial)

/-! ### Bindings -/

theorem quiet_frames (h : Heap) (frames : Store .frame Frame) : h.Quiet { h with frames } :=
  .of_same rfl rfl rfl rfl rfl

theorem insertBinding_posts (f : FrameId) (name : String) (value : Value) :
    Posts T (insertBinding f name value) h (fun _ _ => True) :=
  .still_bind (.bind (.frame f) (fun _ => .pure _)) (fun _ _ =>
    .modify_bind (quiet_frames h _) (.pure trivial))

theorem assign_posts (f : FrameId) (name : String) (value : Value) :
    Posts T (assign f name value) h (fun _ _ => True) := by
  refine .still_bind (.bind (.frame f) (fun _ => .pure _)) (fun previous _ => ?_)
  cases value.vector? with
  | none => exact insertBinding_posts f name value
  | some v =>
    refine .ite (fun _ => insertBinding_posts f name value) (fun _ => ?_)
    exact (setSharing_posts v _).discard.bind (fun _ _ _ _ => insertBinding_posts f name value)

theorem removeBinding_posts (f : FrameId) (name : String) :
    Posts T (removeBinding f name) h (fun _ _ => True) :=
  .still_bind (.bind (.frame f) (fun _ => .pure _)) (fun _ _ =>
    .modify_bind (quiet_frames h _) (.pure trivial))

theorem cloneFrame_posts (f : FrameId) : Posts T (cloneFrame f) h (fun _ _ => True) :=
  .still_bind (.frame f) (fun _ _ => Outcome.of_ok rfl ⟨(quiet_frames h _).posted, trivial⟩)

theorem newFrame_posts : Posts T newFrame h (fun _ _ => True) :=
  Outcome.of_ok rfl ⟨(quiet_frames h _).posted, trivial⟩

theorem passArguments_posts (as : List Argument) :
    Posts T (passArguments as) h (fun _ _ => True) := by
  induction as generalizing h with
  | nil => exact .pure trivial
  | cons a as ih =>
    have passed : Posts T (passArgument a) h (fun _ _ => True) := by
      refine .ite (fun _ => .pure trivial) (fun _ => ?_)
      cases a.value.sharingTarget? with
      | none => exact .pure trivial
      | some v => exact (setSharing_posts v _).bind (fun _ _ _ _ => .pure trivial)
    exact passed.discard.bind (fun _ _ _ _ => ih)

end VectorHeap.Op

namespace VectorHeap.Call

open Op

/-- The native contents that a call may move into others, and the foreign memory that it adopts. -/
def moves (h : Heap) : Call → VectorId → Backing → Prop
  | setCapacity v _, w, b => w = v ∧ ∀ a i, b ≠ .external a i
  | adopt .., w, b => w = h.vectors.fresh ∧ ∃ a i, b = .external a i
  | _, _, _ => False

theorem discard_posts {α : Type} {T : VectorId → Backing → Prop} {op : Op α} {h : Heap}
    {answers : α → Heap → Prop} (P : Posts T op h answers) :
    Posts T (discard op) h (fun _ _ => True) :=
  (P.mono (fun _ _ _ _ => trivial)).discard

/-- From every heap, whatever users ask for is made of postings. A new context is one of them if no object
belongs to it already. -/
theorem posts_of_unclaimed {h : Heap} (call : Call)
    (unclaimed : ∀ config, call = .newContext config → ∀ o, h.contextOf? o ≠ some h.contexts.fresh) :
    Posts (call.moves h) call.op h (fun _ _ => True) := by
  cases call with
  | newContext config => exact Outcome.of_ok rfl ⟨.single (.context config (unclaimed config rfl)), trivial⟩
  | newBuffer bytes => exact discard_posts (newBuffer_posts bytes)
  | newString c text => exact discard_posts (newString_posts c text)
  | naString c => exact discard_posts (naString_posts c)
  | newVector c type es =>
    exact discard_posts (.still_bind (bufferOf_still type es) (fun _ _ => overBuffer_posts ..))
  | withCapacity c type length capacity => exact discard_posts (withCapacity_posts c type length capacity)
  | adopt c type buffer length => exact discard_posts (adopt_posts c type buffer length)
  | get v i => exact discard_posts (.of_still (getElem_still v i))
  | getValue v t i => exact discard_posts (.of_still (getValue_still v t i))
  | toList v => exact discard_posts (.of_still (toList_still v))
  | toValues v t => exact discard_posts (.of_still (toValues_still v t))
  | set v i e => exact setElem_posts v i e
  | setLength v n => exact setLength_posts v n
  | setCapacity v n => exact setCapacity_posts (fun _ domestic => ⟨rfl, domestic⟩) n
  | ensureHandle o => exact discard_posts (ensureHandle_posts o)
  | promote v => exact discard_posts (promote_posts v)
  | materialize s => exact discard_posts (materialize_posts s)
  | copy v => exact discard_posts (copy_posts v)
  | writable v => exact discard_posts (writable_posts v)
  | applyTrigger v t => exact discard_posts (setSharing_posts v _)
  | markBound v => exact discard_posts (setSharing_posts v _)
  | markShared v => exact discard_posts (setSharing_posts v _)
  | lookup c k => exact discard_posts (.of_still (lookup_still c k))
  | flip c type => exact .modify (.modifyContext h c _ (fun _ _ => rfl))
  | newFrame => exact discard_posts newFrame_posts
  | cloneFrame f => exact discard_posts (cloneFrame_posts f)
  | insertBinding f name value => exact discard_posts (insertBinding_posts f name value)
  | assign f name value => exact discard_posts (assign_posts f name value)
  | removeBinding f name => exact discard_posts (removeBinding_posts f name)
  | passArguments as => exact passArguments_posts as

theorem posts {h : Heap} (I : h.Intact) (call : Call) :
    Posts (call.moves h) call.op h (fun _ _ => True) :=
  posts_of_unclaimed call (fun _ _ _ own => Nat.lt_irrefl _ (I.context_issued own))

end VectorHeap.Call
