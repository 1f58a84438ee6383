import VectorHeap.Proofs.Construction
import VectorHeap.Proofs.Contents

/-! Adopting foreign buffers. The new vector reads and writes the buffer in place. It is never managed,
but it might as well have been for as long as it took to assign its peer; so adopting is made of the
same changes as everything else. -/
namespace VectorHeap.Op

variable {h : Heap} {c : ContextId} {t : InlineType} {b : BufferId} {length : Nat}
  {stops : Fault → Heap → Prop}

def adopting (c : ContextId) (type : ElemType) (length : Nat) : VectorCell :=
  { context := c, type, length, capacity := length, complete := false, buffer := none }

def flipped (h : Heap) (c : ContextId) (type : ElemType) : Heap :=
  h.modifyContext c (fun ctx => { ctx with switches := ctx.switches.flip type })

theorem flipped_revises (h : Heap) (c : ContextId) (type : ElemType) (v : Option VectorId)
    (p : Option PeerId) : h.Revises v p (flipped h c type) :=
  (Heap.Revises.refl h v p).modifyContext c _ (fun _ => rfl) (fun _ _ => rfl) (fun _ _ _ => id)
    (fun _ _ => .inl)
    (fun ctx t on => by rw [Switches.isPromoted_flip, on, Bool.or_true])

theorem peerOf_withdrawn (h : Heap) (c : ContextId) (type : ElemType) (length : Nat) :
    ((flipped h c type).discarded (adopting c type length)).peerOf? (.vector h.vectors.fresh) = none := by
  rw [Heap.peerOf?, Heap.find_discarded]
  exact congrArg (Option.bind · VectorCell.peer) h.vectors.find_fresh

def announced (h : Heap) (c : ContextId) (type : ElemType) (length : Nat) : Heap :=
  { flipped h c type with vectors := h.vectors.add (adopting c type length) }

def announcedPeer (h : Heap) (c : ContextId) (type : ElemType) (length : Nat) (k : Handle) : Heap :=
  (announced h c type length).entered c k (.vector h.vectors.fresh)
    (vectorSite (adopting c type length))

def adopted (h : Heap) (c : ContextId) (p : PeerId) (k : Handle) (a : Address) (b : BufferId)
    (length : Nat) : Heap :=
  (h.modifyPeer p (fun peer => { peer with
    backing := .external a b, length, capacity := length, pins := [] })).modifyRegistry c
    (·.addContents k (.external a b))

theorem orDiscard_run {α : Type} (v : VectorId) (op : Op α) (h : Heap) :
    orDiscard v op h = match op h with
      | .ok a h' => .ok a h'
      | .error f h' => .error f { h' with vectors := h'.vectors.erase v } := by
  change EStateM.tryCatch op _ h = _
  unfold EStateM.tryCatch
  cases op h <;> rfl

variable {ctx : Context} {foreign : ForeignBuffer}

theorem announced_peer (found : h.contexts.find? c = some ctx) (type : ElemType) (length : Nat) :
    orDiscard h.vectors.fresh (ensureVectorPeer h.vectors.fresh) (announced h c type length) =
      let h₃ := announcedPeer h c type length ctx.registry.nextHandle
      if (ctx.registry.peer? ctx.registry.nextHandle).isSome then
        .error (.panic (.registeredTwice ctx.registry.nextHandle))
          { h₃ with vectors := h₃.vectors.erase h.vectors.fresh }
      else
        .ok h.peers.fresh ((h₃.modifyRegistry c (·.countRegistered)).point (.vector h.vectors.fresh)
          h.peers.fresh) := by
  have context : (announced h c type length).contexts.find? c =
      some { ctx with switches := ctx.switches.flip type } :=
    (h.contexts.find_modify_self c _).trans (by rw [found]; rfl)
  have new : (announced h c type length).vectors.find? h.vectors.fresh =
      some (adopting c type length) := h.vectors.find_add_fresh _
  have ensured : ensureVectorPeer h.vectors.fresh (announced h c type length) = _ :=
    vector_bind new _
  have registered := register_run context (.vector h.vectors.fresh) (vectorSite (adopting c type length))
  have run : ensureVectorPeer h.vectors.fresh (announced h c type length) = _ :=
    ensured.trans (bind_run (register c (.vector h.vectors.fresh) (vectorSite (adopting c type length)))
      _ (announced h c type length))
  rw [orDiscard_run, run, registered]
  by_cases taken : (ctx.registry.peer? ctx.registry.nextHandle).isSome = true
  · simp only [taken, if_true]
    rfl
  · simp only [taken, Bool.false_eq_true, if_false]
    rfl

/-! ### The same heap by way of a managed vector -/

/-- A managed vector in place of the adopting one. -/
def standIn (c : ContextId) (t : InlineType) (length : Nat) : VectorCell :=
  { adopting c t.elemType length with
    buffer := some (.ofValues t (List.replicate length t.na)) }

def stoodIn (h : Heap) (c : ContextId) (t : InlineType) (length : Nat) : Heap :=
  { flipped h c t.elemType with vectors := h.vectors.add (standIn c t length) }

def stoodInPeer (h : Heap) (c : ContextId) (t : InlineType) (length : Nat) (k : Handle) : Heap :=
  (((stoodIn h c t length).entered c k (.vector h.vectors.fresh)
    (vectorSite (standIn c t length))).modifyRegistry c (·.countRegistered)).point
    (.vector h.vectors.fresh) h.peers.fresh

theorem announced_eq_stoodIn (h : Heap) (c : ContextId) (t : InlineType) (length : Nat) (k : Handle) :
    ((announcedPeer h c t.elemType length k).modifyRegistry c (·.countRegistered)).point
        (.vector h.vectors.fresh) h.peers.fresh =
      (stoodInPeer h c t length k).modifyVector h.vectors.fresh
        (fun cell => { cell with buffer := none }) := by
  simp only [announcedPeer, announced, stoodInPeer, stoodIn, Heap.point, Heap.modifyVector,
    Heap.modifyRegistry, Heap.modifyContext, Heap.entered, Store.modify_add, vectorSite, standIn,
    adopting]

theorem stoodIn_moves {B : BufferId → Prop} (found : h.contexts.find? c = some ctx)
    (free : ctx.registry.peer? ctx.registry.nextHandle = none) (t : InlineType) (length : Nat) :
    h.Moves Nowhere B (stoodInPeer h c t length ctx.registry.nextHandle) := by
  have flip : h.Moves Nowhere B (flipped h c t.elemType) :=
    (Heap.Change.environs (flipped_revises h c t.elemType none none) rfl).moves
  have context : (flipped h c t.elemType).contexts.find? c =
      some { ctx with switches := ctx.switches.flip t.elemType } :=
    (h.contexts.find_modify_self c _).trans (by rw [found]; rfl)
  have addable : (flipped h c t.elemType).Addable (standIn c t length)
      (.ofValues t (List.replicate length t.na)) :=
    { buffer := rfl
      peer := rfl
      type := rfl
      capacity := by simp [Buffer.capacity, Buffer.ofValues, standIn, adopting]
      window := Nat.le_refl _
      refs := fun r hr => by
        rcases Heap.mem_vector_refs.mp hr with rfl | ⟨p, hp, rfl⟩ | ⟨b, hb, held⟩
        · exact Heap.has_context_iff.mpr ⟨_, context⟩
        · exact absurd hp (by simp [standIn, adopting])
        · cases hb
          obtain ⟨e, he, o, ho, rfl⟩ := Heap.mem_buffer_refs.mp held
          obtain ⟨x, _, rfl⟩ := List.mem_map.mp he
          exact absurd ((Heap.object_ofValue t x).symm.trans ho) (by simp)
      temporary := rfl
      complete := nofun }
  have new : (stoodIn h c t length).vectors.find? h.vectors.fresh = some (standIn c t length) :=
    h.vectors.find_add_fresh _
  have second : h.Moves Nowhere B (stoodIn h c t length) := flip.tail (.growth (.vector _ _ addable))
  have grown : (stoodIn h c t length).Growth (stoodInPeer h c t length ctx.registry.nextHandle) :=
    .peer c { ctx with switches := ctx.switches.flip t.elemType } (.vector h.vectors.fresh)
      (vectorSite (standIn c t length)) context (by rw [Heap.contextOf?, new]; rfl)
      ((Heap.peerOf_vector new).trans rfl) free
  exact second.tail (.growth grown)

theorem adopt_indirect {type : ElemType} (indirect : type.isIndirect = true) (c : ContextId)
    (buffer : Option BufferId) (length : Nat) :
    adopt c type buffer length h = .error (.error (.unsupportedExternal type)) h := by
  unfold adopt
  rw [if_pos indirect]
  rfl

theorem adopt_run (there : h.buffers.find? b = some foreign) (t : InlineType) (length : Nat) :
    adopt c t.elemType (some b) length h = (do
      let p ← orDiscard h.vectors.fresh (ensureVectorPeer h.vectors.fresh)
      install c p (.external foreign.address b) length length []
      return h.vectors.fresh : Op VectorId) (announced h c t.elemType length) := by
  have run : live (h.buffers.find? b) h = .ok foreign h := by rw [there, live_some]
  unfold adopt
  rw [if_neg (by rw [t.elemType_not_indirect]; decide)]
  exact bind_of_ok run

theorem stoodIn_peer (h : Heap) (c : ContextId) (t : InlineType) (length : Nat) (k : Handle) :
    (stoodInPeer h c t length k).peers.find? h.peers.fresh =
      some { handle := k, owner := .vector h.vectors.fresh } :=
  h.peers.find_add_fresh _

theorem stoodIn_cell (h : Heap) (c : ContextId) (t : InlineType) (length : Nat) (k : Handle) :
    (stoodInPeer h c t length k).vectors.find? h.vectors.fresh =
      some { standIn c t length with peer := some h.peers.fresh } := by
  refine (Store.find_modify_self _ h.vectors.fresh _).trans ?_
  rw [show (((stoodIn h c t length).entered c k (.vector h.vectors.fresh)
    (vectorSite (standIn c t length))).modifyRegistry c (·.countRegistered)).vectors =
    h.vectors.add (standIn c t length) from rfl, Store.find_add_fresh]
  rfl

theorem adopted_updates (I : h.Intact) (found : h.contexts.find? c = some ctx)
    (free : ctx.registry.peer? ctx.registry.nextHandle = none)
    (there : h.buffers.find? b = some foreign)
    (large : t.elemType.nativeWidth * length ≤ foreign.bytes.length) :
    (stoodInPeer h c t length ctx.registry.nextHandle).Updates h.vectors.fresh
      { standIn c t length with peer := some h.peers.fresh }
      ⟨t.elemType, (t.decodeAll length foreign.bytes).map (Elem.ofValue t), length, false, .temporary⟩
      (adopted ((stoodInPeer h c t length ctx.registry.nextHandle).modifyVector h.vectors.fresh
        (fun cell => { cell with buffer := none })) c h.peers.fresh ctx.registry.nextHandle
        foreign.address b length) := by
  let h₁ := stoodInPeer h c t length ctx.registry.nextHandle
  have I₁ : h₁.Intact := (stoodIn_moves (B := Nowhere) found free t length).intact I
  let h' := adopted (h₁.modifyVector h.vectors.fresh (fun cell => { cell with buffer := none })) c
    h.peers.fresh ctx.registry.nextHandle foreign.address b length
  have R : h₁.Revises (some h.vectors.fresh) (some h.peers.fresh) h' := by
    refine Heap.Revises.modifyRegistry ?_ _ _ (fun r => accounts_addContents r _ _)
    refine Heap.Revises.modifyPeer ?_ _ _ rfl (fun _ => rfl)
    exact (Heap.Revises.refl _ _ _).modifyVector _ _ rfl (fun _ => rfl)
  have found₁ := stoodIn_cell h c t length ctx.registry.nextHandle
  have hq := stoodIn_peer h c t length ctx.registry.nextHandle
  have found' : h'.vectors.find? h.vectors.fresh =
      some { standIn c t length with peer := some h.peers.fresh, buffer := none } :=
    (Store.find_modify_self _ _ _).trans (by rw [found₁]; rfl)
  have hq' : h'.peers.find? h.peers.fresh = some
      { handle := ctx.registry.nextHandle, owner := .vector h.vectors.fresh,
        backing := .external foreign.address b, length, capacity := length } :=
    (Store.find_modify_self _ _ _).trans (by
      rw [show (h₁.modifyVector h.vectors.fresh _).peers.find? h.peers.fresh = _ from hq]
      rfl)
  have there' : h'.buffers.find? b = some foreign := there
  have flip : h'.isPromoted c t.elemType = true := by
    change (((((h.contexts.modify c _).modify c _).modify c _).modify c _).find? c).any _ = true
    simp only [Store.find_modify_self, found, Option.map_some, Option.any_some,
      Switches.isPromoted_flip, decide_true, Bool.true_or]
  have U := Heap.updates_of_native I₁ found₁ rfl hq R found' hq' rfl (Nat.le_refl _)
    { length := rfl
      capacity := rfl
      backed := ⟨I.buffers b foreign there, t.elemType_not_indirect, foreign, there', rfl, large⟩
      switched := flip
      indirect := fun indirect =>
        absurd (t.elemType_not_indirect.symm.trans indirect) (by decide)
      inline := fun _ => rfl }
    (by simp)
  have shows : h'.contents (.external foreign.address b) = foreign.bytes := by
    rw [Heap.contents, there']
    rfl
  rw [Heap.nativeElements_inline t.ofElemType_elemType, shows] at U
  exact U

theorem adopted_meters (h : Heap) (c : ContextId) (t : InlineType) (length : Nat) (k : Handle)
    (a : Address) (b : BufferId) (p : Option PeerId) :
    (stoodInPeer h c t length k).Meters c p
      (adopted ((stoodInPeer h c t length k).modifyVector h.vectors.fresh
        (fun cell => { cell with buffer := none })) c h.peers.fresh k a b length) := by
  refine .still (fun c' => ?_) (fun i => ?_)
  · exact (stoodInPeer h c t length k).liveBytes_modifyContext c
      (fun ctx => { ctx with registry := ctx.registry.addContents k (.external a b) })
      (fun _ => rfl) c'
  · refine (stoodInPeer h c t length k).ownedBytes_modifyPeer h.peers.fresh (fun peer => { peer with
      backing := .external a b, length, capacity := length, pins := [] }) (fun q hq => ?_) i
    cases (stoodIn_peer h c t length k).symm.trans hq
    rfl

/-- Adopting makes a new vector over a buffer that is large enough, in place. Only a handle that is
taken stops it. -/
theorem adopt_performs (I : h.Intact) (alive : h.has (.context c) = true)
    (there : h.buffers.find? b = some foreign)
    (large : t.elemType.nativeWidth * length ≤ foreign.bytes.length) :
    Performs (fun w => h.has (.vector w) = false) Nowhere (adopt c t.elemType (some b) length) h
      (fun v h' => h.has (.vector v) = false ∧ h'.contextOf? (.vector v) = some c ∧
        h'.foreign? v = some b ∧ h'.sequence? v = some ⟨t.elemType,
          (t.decodeAll length foreign.bytes).map (Elem.ofValue t), length, false, .temporary⟩)
      stops := by
  obtain ⟨ctx, found⟩ := Heap.has_context_iff.mp alive
  have context : (flipped h c t.elemType).contexts.find? c =
      some { ctx with switches := ctx.switches.flip t.elemType } :=
    (h.contexts.find_modify_self c _).trans (by rw [found]; rfl)
  have assigned := announced_peer found t.elemType length
  -- The switch of the type is flipped either way, also when the handle turns out to be taken.
  cases taken : ctx.registry.peer? ctx.registry.nextHandle with
  | some p =>
    simp only [taken, Option.isSome_some, if_true] at assigned
    have flip : h.Moves (fun w => h.has (.vector w) = false) Nowhere (flipped h c t.elemType) :=
      (Heap.Change.environs (flipped_revises h c t.elemType none none) rfl).moves
    refine Outcome.of_error ((adopt_run there t length).trans (bind_of_error assigned))
      (.inr ⟨⟨_, rfl⟩, _, flip, .discarded _ _ (adopting c t.elemType length) ?_⟩)
    exact .entered ((flipped h c t.elemType).discarded (adopting c t.elemType length)) c
      { ctx with switches := ctx.switches.flip t.elemType } (.vector h.vectors.fresh)
      (vectorSite (adopting c t.elemType length)) context (Nat.lt_succ_self _)
      (peerOf_withdrawn h c t.elemType length) rfl
  | none =>
    simp only [taken, Option.isSome_none, Bool.false_eq_true, if_false] at assigned
    have U := adopted_updates I found taken there large
    have moves := stoodIn_moves (B := Nowhere) found taken t length
    have new := fresh_not_there (h := h)
    have metered := adopted_meters h c t length ctx.registry.nextHandle foreign.address b
      (some h.peers.fresh)
    rw [← announced_eq_stoodIn h c t length ctx.registry.nextHandle] at U metered
    let h₄ := ((announcedPeer h c t.elemType length ctx.registry.nextHandle).modifyRegistry c
      (·.countRegistered)).point (.vector h.vectors.fresh) h.peers.fresh
    let h' := adopted h₄ c h.peers.fresh ctx.registry.nextHandle foreign.address b length
    have hq : h₄.peers.find? h.peers.fresh =
        some { handle := ctx.registry.nextHandle, owner := .vector h.vectors.fresh } :=
      h.peers.find_add_fresh _
    have hq' : h'.peers.find? h.peers.fresh = some
        { handle := ctx.registry.nextHandle, owner := .vector h.vectors.fresh,
          backing := .external foreign.address b, length, capacity := length } :=
      (Store.find_modify_self _ _ _).trans (by rw [hq]; rfl)
    have found' : h'.vectors.find? h.vectors.fresh =
        some { adopting c t.elemType length with peer := some h.peers.fresh } :=
      (Store.find_modify_self _ _ _).trans
        (congrArg (Option.map (fun cell => { cell with peer := some h.peers.fresh }))
          (h.vectors.find_add_fresh (adopting c t.elemType length)))
    refine .of_ok (a := h.vectors.fresh) ?_ ((moves.mono (fun _ => False.elim) (fun _ => id)).tail
      (.update h.vectors.fresh _ _ new U metered (fun _ _ => rfl) ⟨Nat.le_refl _, nofun⟩ nofun))
      ⟨new, ?_, ?_, U.sequence⟩
    · exact (adopt_run there t length).trans ((bind_of_ok assigned).trans
        ((bind_of_ok (install_run hq rfl ..)).trans rfl))
    · exact (congrArg (Option.map VectorCell.context) found').trans rfl
    · exact Heap.foreign_eq_some_iff.mpr ⟨_, _, _, _, found', rfl, hq', rfl⟩

end VectorHeap.Op
