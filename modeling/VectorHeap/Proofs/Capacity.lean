import VectorHeap.Proofs.Construction
import VectorHeap.Proofs.Reading
import VectorHeap.Vector.Capacity

/-! Length and capacity. The length moves within the slots; another capacity keeps the slots that both
have and fills the new ones, on whichever side the contents are. What the allocator refuses is refused
before anything shows. -/
namespace VectorHeap.Op

variable {h : Heap} {v : VectorId} {cell : VectorCell} {n : Nat}

theorem setLength_run (I : h.Intact) (found : h.vectors.find? v = some cell)
    (fits : n ≤ cell.capacity) :
    setLength v n h =
      let h₁ := h.modifyVector v (fun cell' =>
        { cell' with length := n, complete := cell.complete && decide (n ≤ cell.length) })
      .ok () (match cell.buffer, cell.peer with
        | none, some p => h₁.modifyPeer p (fun q => { q with length := n })
        | _, _ => h₁) := by
  have F := I.vectors v cell found
  unfold setLength
  rw [vector_bind found, if_neg (Nat.not_lt.mpr fits)]
  refine (modify_bind _ _).trans ?_
  cases hb : cell.buffer with
  | some b =>
    cases hp : cell.peer with
    | none => rfl
    | some p =>
      obtain ⟨q, hq, _⟩ := I.peer_of_vector found hp
      refine (peer_bind (h := h.modifyVector v _) hq _).trans ?_
      rw [((F.managed b hb).bare p q hp hq).1]
      rfl
  | none =>
    obtain ⟨p, q, hp, hq, N⟩ := F.native hb
    simp only [hp]
    refine (peer_bind (h := h.modifyVector v _) hq _).trans ?_
    rw [N.isAllocated]
    rfl

theorem setLength_performs {B : BufferId → Prop} (I : h.Intact)
    (found : h.vectors.find? v = some cell) (n : Nat) :
    Performs (Only v) B (setLength v n) h
      (fun _ h' => ∃ s, (h.sequence cell).setLength n = .ok s ∧ h'.sequence? v = some s)
      (fun f h' => h' = h ∧ (h.sequence cell).setLength n = .error f) := by
  have slots : (h.sequence cell).capacity = cell.capacity :=
    (I.vectors v cell found).length_elements
  by_cases fits : n ≤ cell.capacity
  · have U := Heap.updates_window I found (cell.complete && decide (n ≤ cell.length)) fits
    refine .of_ok (setLength_run I found fits)
      (Heap.Change.update v cell _ (show Only v v from rfl) U (.still (fun c => ?_) (fun i => ?_))
        (fun b _ => ?_) (.window n) (fun _ b there => ?_)).moves
      ⟨_, if_neg (by rw [slots]; omega), U.sequence⟩
    · split <;> rfl
    · split
      · exact Heap.ownedBytes_modifyPeer _ _ (fun q => { q with length := n }) (fun _ _ => rfl) i
      · rfl
    · split <;> rfl
    · have R : h.Revises (some v) none (h.modifyVector v (fun cell' =>
          { cell' with length := n, complete := cell.complete && decide (n ≤ cell.length) })) :=
        (Heap.Revises.refl h _ _).modifyVector v _ rfl (fun _ => rfl)
      split at there
      · rw [Heap.foreign_modifyPeer _ _ (fun q => { q with length := n }) (fun _ => rfl)] at there
        exact (R.foreign v).symm.trans there
      · exact (R.foreign v).symm.trans there
  · refine .of_error (f := .error (.lengthExceedsCapacity n cell.capacity)) ?_ .refl ⟨rfl, ?_⟩
    · unfold setLength
      rw [vector_bind found, if_pos (Nat.lt_of_not_le fits)]
      rfl
    · rw [← slots]
      exact if_pos (by rw [slots]; omega)

/-! ### Fillers of native slots -/

def Handed (h : Heap) (made : List (Object × Handle)) : Prop :=
  ∀ e ∈ made, h.isAlive e.1 = true ∧ h.handleOf e.1 = e.2 ∧ e.2.isSome = true

theorem Handed.later {T : VectorId → Prop} {B : BufferId → Prop} {h' : Heap}
    {made : List (Object × Handle)} (I : h.Intact) (M : h.Moves T B h') (H : Handed h made) :
    Handed h' made := fun e he => by
  obtain ⟨alive, handle, named⟩ := H e he
  exact ⟨M.isAlive I alive, (M.handleOf I (handle.symm ▸ named)).trans handle, named⟩

theorem Handed.bytes {made : List (Object × Handle)} (H : Handed h made) :
    made.flatMap (fun e => handleBytes e.2) =
      (made.map Prod.fst).flatMap (fun o => handleBytes (h.handleOf o)) := by
  induction made with
  | nil => rfl
  | cons e made ih =>
    obtain ⟨first, rest⟩ := List.forall_mem_cons.mp H
    rw [List.flatMap_cons, ih rest, List.map_cons, List.flatMap_cons, first.2.1]

variable {c : ContextId} {type : ElemType} {stops : Fault → Heap → Prop}

theorem indirectFiller_performs (I : h.Intact) (alive : h.has (.context c) = true)
    (indirect : type.isIndirect = true) :
    Performs Nowhere Nowhere (indirectFiller c type) h
      (fun o h' => h'.IsFiller c type o.toElem ∧
        ∀ v, o = .vector v → h.has (.vector v) = false) stops := by
  unfold indirectFiller
  split
  · rename_i str
    subst str
    exact (naString_performs I alive).bind (fun s h' _ named => .pure
      ⟨⟨rfl, named.1⟩, fun v hv => absurd hv (by simp)⟩)
  · rename_i other
    have list : type = .list := by cases type <;> simp_all [ElemType.isIndirect]
    subst list
    refine (emptyList_performs alive).bind (fun v h' _ made => .pure ⟨?_, ?_⟩)
    · exact ⟨rfl, made.own, made.sequence, made.foreign⟩
    · rintro w hw
      cases hw
      exact made.new

theorem nativeFillers_performs (I : h.Intact) (alive : h.has (.context c) = true)
    (indirect : type.isIndirect = true) (n : Nat) :
    Performs Nowhere Nowhere (nativeFillers c type n) h
      (fun made h' => made.length = n ∧ Handed h' made ∧
        h.Fillers h' c type (made.map (fun e => e.1.toElem))) stops := by
  induction n generalizing h with
  | zero => exact .pure ⟨rfl, by simp [Handed], ⟨by simp, by simp, fun _ => .nil⟩⟩
  | succ n ih =>
    refine (indirectFiller_performs I alive indirect).bind (fun o h₁ M₁ ⟨filler, new⟩ => ?_)
    have I₁ := M₁.intact I
    have own : h₁.contextOf? o = some c := filler.own I₁ (Object.object_toElem o)
    have there : h₁.isAlive o = true := Heap.isAlive_iff_contextOf.mpr ⟨c, own⟩
    refine Performs.bind ((ensureHandle_performs I₁ there).mono (fun _ _ _ => id) ?_) ?_
    · exact fun f h' _ stop => absurd stop.2 (not_orphaned own (M₁.has I alive))
    · rintro k h₂ M₂ ⟨handle, named⟩
      have I₂ := M₂.intact I₁
      have M₁₂ := M₁.trans M₂
      refine (ih I₂ (M₁₂.has I alive)).bind (fun made h₃ M₃ ⟨length, handed, F⟩ => .pure ?_)
      refine ⟨congrArg Nat.succ length, List.forall_mem_cons.mpr ⟨?_, handed⟩, ?_, ?_, ?_⟩
      · exact ⟨M₃.isAlive I₂ (M₂.isAlive I₁ there),
          (M₃.handleOf I₂ (handle.symm ▸ named)).trans handle, named⟩
      · refine List.forall_mem_cons.mpr ⟨?_, F.fillers⟩
        exact filler.later I₁ (M₂.trans M₃) (fun _ _ => id)
      · intro w hw
        rcases List.mem_cons.mp hw with same | hw
        · have object := Object.object_toElem o
          rw [← show Elem.list w = o.toElem from same] at object
          exact new w (Option.some.inj object).symm
        · exact Moves_not_there I M₁₂ (F.new w hw)
      · intro list
        refine List.nodup_cons.mpr ⟨fun twice => ?_, F.single list⟩
        cases o with
        | vector w => exact absurd ((M₂.isAlive I₁ there).symm.trans (F.new w twice)) (by decide)
        | string s =>
          have sort := filler.type_eq
          rw [list] at sort
          exact absurd sort (by simp [Object.toElem, Elem.type])

/-! ### Native contents of another size -/

def resizedContents (h : Heap) (cell : VectorCell) (q : Peer) (n : Nat) : Bytes :=
  Block.resized ((h.contents q.backing).take (cell.capacity * cell.type.nativeWidth))
    (cell.type.nativeWidth * n)

/-- There is no native memory for so many slots: no word holds their size, or the allocator may refuse
their block. -/
def NoRoom (h : Heap) (type : ElemType) (n : Nat) (f : Fault) : Prop :=
  (f = .panic .multiplyOverflow ∧ UInt64.size ≤ type.nativeWidth * n) ∨
    (f = .error (.allocationFailure (blockSize (type.nativeWidth * n))) ∧
      h.Scarce (blockSize (type.nativeWidth * n)))

theorem NoRoom.since {h h' : Heap} {type : ElemType} {n : Nat} {f : Fault} (A : h.Asks h')
    (none : NoRoom h' type n f) : NoRoom h type n f :=
  none.imp_right (fun refused => ⟨refused.1, A.scarce refused.2⟩)

structure Resized (h : Heap) (cell : VectorCell) (p : PeerId) (q : Peer) (n : Nat) (b : Backing)
    (h' : Heap) : Prop where
  revises : ∀ v, h.Revises v (some p) h'
  vectors : h'.vectors = h.vectors
  buffers : h'.buffers = h.buffers
  peer : h'.peers.find? p = some { q with backing := b, capacity := n }
  backed : h'.Backed { cell with capacity := n } b
  contents : h'.contents b = resizedContents h cell q n
  own : ∀ a i, b ≠ .external a i
  metered : h.Meters cell.context (some p) h'

section
variable {p : PeerId} {q : Peer}

theorem resizedBacking_run (N : h.Native cell q) (positive : n ≠ 0) (empty : Address) :
    resizedBacking q cell.type.nativeWidth (cell.type.nativeWidth * n) empty h =
      if h.Refuses (cell.type.nativeWidth * n) then
        .error (.error (.allocationFailure (cell.type.nativeWidth * n))) h.placed
      else
        .ok (.owned (h.placement (cell.type.nativeWidth * n) (q.backing.owned?.map Prod.fst))
          (resizedContents h cell q n)) h.placed := by
  have some : cell.type.nativeWidth * n ≠ 0 :=
    Nat.mul_ne_zero (Nat.ne_of_gt cell.type.nativeWidth_pos) positive
  have room := N.room.2
  have B := N.backed
  unfold resizedBacking resizedContents
  rw [if_neg some]
  cases hb : q.backing with
  | unallocated => rw [hb] at B; exact B.elim
  | empty a =>
    simp only [Heap.contents, List.take_nil]
    exact ownBlock_run [] _ none
  | owned a bytes =>
    rw [hb] at B
    have all : bytes.take (cell.capacity * cell.type.nativeWidth) = bytes :=
      List.take_of_length_le (Nat.le_of_eq (by rw [B.2.1, Nat.mul_comm]))
    simp only [Heap.contents, all]
    exact ownBlock_run bytes _ (.some a)
  | external a b =>
    have read : contentsTo q (min (q.capacity * cell.type.nativeWidth) (cell.type.nativeWidth * n)) h =
        .ok (h.contents q.backing) h :=
      contentsTo_run (by rw [N.capacity]; omega)
    refine (bind_of_ok read).trans ?_
    rw [N.capacity, hb]
    exact ownBlock_run _ _ none

def moved (h : Heap) (c : ContextId) (p : PeerId) (q : Peer) (b : Backing) (n : Nat) : Heap :=
  (h.modifyRegistry c (fun r => (r.dropContents q.backing).addContents q.handle b)).modifyPeer p
    (fun peer => { peer with backing := b, capacity := n })

theorem moved_peer (hq : h.peers.find? p = some q) (c : ContextId) (b : Backing) (n : Nat) :
    (moved h c p q b n).peers.find? p = some { q with backing := b, capacity := n } :=
  (h.peers.find_modify_self p _).trans (by rw [hq]; rfl)

theorem moved_revises (h : Heap) (c : ContextId) (p : PeerId) (q : Peer) (b : Backing) (n : Nat)
    (v : Option VectorId) : h.Revises v (some p) (moved h c p q b n) := by
  refine ((Heap.Revises.refl h _ _).modifyRegistry c _ (fun r => ?_)).modifyPeer p _ rfl
    (fun _ => rfl)
  obtain ⟨peers, counter, stride, registered⟩ := accounts_addContents (r.dropContents q.backing) q.handle b
  obtain ⟨peers', counter', stride', registered'⟩ := accounts_dropContents r q.backing
  exact ⟨peers.trans peers', counter.trans counter', stride.trans stride',
    registered.trans registered'⟩

theorem moved_meters {c : ContextId} (alive : h.has (.context c) = true)
    (hq : h.peers.find? p = some q) (b : Backing) (n : Nat) :
    h.Meters c (some p) (moved h c p q b n) := by
  obtain ⟨ctx, found⟩ := Heap.has_context_iff.mp alive
  refine Heap.meters_of_contents found ((h.contexts.find_modify_self c _).trans (by rw [found]; rfl))
    hq (moved_peer hq c b n) (fun c' other => h.contexts.find_modify_ne _ other)
    (fun i other => h.peers.find_modify_ne _ other) ?_
  simp only [liveBytes_addContents, liveBytes_dropContents]

/-- How contents of a size are refused: a size that no word holds before the allocator is asked. -/
def refusal {α : Type} (size : Nat) (h : Heap) : EStateM.Result Fault Heap α :=
  if UInt64.size ≤ size then .error (.panic .multiplyOverflow) h
  else .error (.error (.allocationFailure (blockSize size))) h.placed

theorem refusal_run {α : Type} (h : Heap) (type : ElemType) (n : Nat) {c : ContextId}
    (denied : Denied h c (type.nativeWidth * n)) :
    ∃ f h', refusal (α := α) (type.nativeWidth * n) h = .error f h' ∧ NoRoom h type n f ∧
      (h' = h ∨ h' = h.placed) := by
  unfold refusal
  split
  · exact ⟨_, _, rfl, .inl ⟨rfl, ‹_›⟩, .inl rfl⟩
  · exact ⟨_, _, rfl, .inr ⟨rfl, denied.2.scarce⟩, .inr rfl⟩

theorem leaves_of_refused {T : VectorId → Prop} {B : BufferId → Prop} {h' : Heap}
    (same : h' = h ∨ h' = h.placed) (found : h.vectors.find? v = some cell) :
    h.Moves T B h' ∧ h.Leaves v (h.sequence cell) h' := by
  have shows := Heap.sequence_eq_some_iff.mpr ⟨cell, found, rfl⟩
  rcases same with rfl | rfl
  · exact ⟨.refl, shows, fun _ => id⟩
  · exact ⟨(Heap.Change.environs (h.revises_placed _ _) rfl).moves, shows, fun _ => id⟩

theorem blockSize_of_pos {size : Nat} (some : size ≠ 0) : blockSize size = size := if_neg some

theorem reallocate_denied (N : h.Native cell q) (hq : h.peers.find? p = some q) (positive : n ≠ 0)
    (denied : h.Refuses (cell.type.nativeWidth * n)) (empty : Address) :
    reallocate cell.context p cell.type.nativeWidth n empty h =
      refusal (cell.type.nativeWidth * n) h := by
  have some : cell.type.nativeWidth * n ≠ 0 :=
    Nat.mul_ne_zero (Nat.ne_of_gt cell.type.nativeWidth_pos) positive
  unfold reallocate refusal
  by_cases overflow : UInt64.size ≤ cell.type.nativeWidth * n
  · rw [if_pos overflow]
    exact bind_of_error (by rw [byteSize_run, if_pos overflow])
  · have run := resizedBacking_run N positive empty
    rw [if_pos denied] at run
    rw [if_neg overflow, bind_of_ok (by rw [byteSize_run, if_neg overflow]), peer_bind hq,
      blockSize_of_pos some]
    exact bind_of_error run

theorem denied_of_overflow {size : Nat} (overflow : UInt64.size ≤ size) : Denied h c size := by
  have some : size ≠ 0 := by
    rintro rfl
    exact absurd overflow (by decide)
  refine ⟨fun none => absurd none some, ?_⟩
  rw [blockSize_of_pos some]
  exact .inr (.inl (Nat.lt_of_lt_of_le (by decide) overflow))

theorem lt_of_granted {size : Nat} (granted : ¬ h.Refuses size) : size < UInt64.size := by
  refine Nat.lt_of_not_le (fun overflow => granted (.inr (.inl (Nat.lt_of_lt_of_le ?_ overflow))))
  decide

theorem reallocate_run (N : h.Native cell q) (hq : h.peers.find? p = some q)
    (alive : h.has (.context cell.context) = true)
    (granted : n ≠ 0 → ¬ h.Refuses (cell.type.nativeWidth * n)) {empty : Address}
    (sentinel : n = 0 → empty ≠ 0 ∧ h.sentinelOf? cell.context = some empty) :
    ∃ b h', reallocate cell.context p cell.type.nativeWidth n empty h = .ok () h' ∧
      Resized h cell p q n b h' := by
  have word : ¬ UInt64.size ≤ cell.type.nativeWidth * n := by
    by_cases zero : n = 0
    · rw [zero, Nat.mul_zero]
      decide
    · exact Nat.not_le.mpr (lt_of_granted (granted zero))
  unfold reallocate
  rw [bind_of_ok (by rw [byteSize_run, if_neg word]), peer_bind hq]
  by_cases zero : n = 0
  · subst zero
    obtain ⟨nonzero, shared⟩ := sentinel rfl
    have R := moved_revises h cell.context p q (.empty empty) 0
    have run : resizedBacking q cell.type.nativeWidth (cell.type.nativeWidth * 0) empty h =
        .ok (.empty empty) h := by
      unfold resizedBacking
      rw [Nat.mul_zero, if_pos rfl]
      rfl
    refine ⟨.empty empty, moved h cell.context p q (.empty empty) 0, (bind_of_ok run).trans rfl,
      { revises := R
        vectors := rfl
        buffers := rfl
        peer := moved_peer hq _ _ _
        backed := ⟨nonzero, (R none).sentinels _ _ shared, rfl⟩
        contents := ?_
        own := fun a i => by simp
        metered := moved_meters alive hq _ _ }⟩
    simp [Heap.contents, resizedContents, Block.resized, Bytes.zeros]
  · have run := resizedBacking_run N zero empty
    rw [if_neg (granted zero)] at run
    let a := h.placement (cell.type.nativeWidth * n) (q.backing.owned?.map Prod.fst)
    let b : Backing := .owned a (resizedContents h cell q n)
    have size : (resizedContents h cell q n).length = cell.type.nativeWidth * n :=
      Block.length_resized _ _
    refine ⟨b, moved h.placed cell.context p q b n, (bind_of_ok run).trans rfl,
      { revises := fun v => (h.revises_placed v (some p)).trans
          (moved_revises h.placed cell.context p q b n v)
        vectors := rfl
        buffers := rfl
        peer := moved_peer (h := h.placed) hq _ _ _
        backed := ⟨h.placement_ne_zero _ _, size, ?_⟩
        contents := rfl
        own := fun a i => by simp [b]
        metered := (moved_meters (h := h.placed) alive hq _ _).since (fun _ => rfl) (fun _ => rfl) }⟩
    rw [size]
    exact Nat.mul_pos cell.type.nativeWidth_pos (Nat.pos_of_ne_zero zero)

theorem fillMissing_written {t : InlineType} (inline : InlineType.ofElemType? type = some t)
    (hq : h.peers.find? p = some q) (backed : h.Backed cell q.backing)
    (allocated : q.backing.address ≠ 0) (slot count : Nat)
    (window : count ≠ 0 → slot + count ≤ max q.capacity q.length ∧
      (slot + count) * t.width ≤ (h.contents q.backing).length) :
    ∃ backing h', fillMissing p type slot count h = .ok () h' ∧
      h.Written cell p q (slot * t.width) (t.encodeAll (List.replicate count t.na)) backing q.pins h' := by
  unfold fillMissing
  rw [inline]
  by_cases zero : count = 0
  · subst zero
    exact ⟨q.backing, h, rfl, .nothing hq backed _⟩
  · obtain ⟨room, inside⟩ := window zero
    have size : (t.encodeAll (List.replicate count t.na)).length = count * t.width := by
      rw [t.length_encodeAll, List.length_replicate]
    obtain ⟨backing, W⟩ := Heap.written hq backed (by rw [size, ← Nat.add_mul]; exact inside)
    refine ⟨backing, _, ?_, W⟩
    simp only [if_neg zero]
    exact writeSlots_run hq size t.width_pos allocated room inside

theorem updates_of_resized (I : h.Intact) (found : h.vectors.find? v = some cell)
    (native : cell.buffer = none) (hp : cell.peer = some p) (hq : h.peers.find? p = some q)
    (N : h.Native cell q) (low : cell.length ≤ n) {b backing : Backing} {h₁ h₂ : Heap}
    {data : Bytes} {pins : List Object} {offset : Nat} (moved : Resized h cell p q n b h₁)
    (W : h₁.Written { cell with capacity := n } p { q with backing := b, capacity := n } offset data
      backing pins h₂)
    (indirect : cell.type.isIndirect = true → h₂.Pinned { cell with capacity := n }
      { q with backing, capacity := n, pins })
    (inline : cell.type.isIndirect = false → pins = [])
    (alive : ∀ o ∈ pins, h.isAlive o = true) :
    let h' := h₂.modifyVector v (fun cell => { cell with capacity := n })
    h.Updates v cell
        ⟨cell.type, h₂.nativeElements { cell with capacity := n } { q with backing, capacity := n, pins },
          cell.length, cell.complete, cell.sharing⟩ h' ∧
      h.Meters cell.context (some p) h' ∧ h'.buffers.find? = h.buffers.find? ∧
      h'.foreign? v = none := by
  intro h'
  have R₂ : h.Revises (some v) (some p) h₂ := (moved.revises _).trans (W.revises _)
  have R : h.Revises (some v) (some p) h' := R₂.modifyVector v _ rfl (fun _ => rfl)
  have found' : h'.vectors.find? v = some { cell with capacity := n } :=
    (h₂.vectors.find_modify_self v _).trans (by rw [W.vectors, moved.vectors, found]; rfl)
  refine ⟨Heap.updates_of_native I found hp hq R found' W.peer native low
    { length := N.length
      capacity := rfl
      backed := W.backed.transport (fun _ => id) (fun _ _ => rfl)
      switched := R.switches _ _ N.switched
      indirect := fun sort =>
        { count := (indirect sort).count
          typed := (indirect sort).typed
          word := fun j o pin => by
            rw [R.handleOf, ← R₂.handleOf]
            exact (indirect sort).word j o pin }
      inline := inline } alive,
    (moved.metered.after W.counted W.owned).after (fun _ => rfl) (fun _ => rfl), funext (fun i => ?_),
    Option.eq_none_iff_forall_not_mem.mpr (fun i there => ?_)⟩
  · exact (W.buffers i (fun a => moved.own a i)).trans (congrArg (·.find? i) moved.buffers)
  · obtain ⟨cell', p', q', a, there', hp', hq', external⟩ := Heap.foreign_eq_some_iff.mp there
    cases found'.symm.trans there'
    cases hp.symm.trans hp'
    cases W.peer.symm.trans hq'
    exact moved.own a i (W.foreign a i external)

/-- What is pinned in so many slots: the old pins that still have one, and the new ones. -/
theorem take_pinFrom {pins os : List Object} (count : os.length = n - pins.length) :
    (pinFrom pins pins.length os).take n = pins.take n ++ os := by
  rw [pinFrom_length, List.take_append, List.take_of_length_le (Nat.le_of_eq count)]

theorem forall_resized_pins {P : Object → Prop} {pins : List Object} {made : List (Object × Handle)}
    (count : made.length = n - pins.length) (old : ∀ o ∈ pins, P o) (new : ∀ e ∈ made, P e.1) :
    ∀ o ∈ (pinFrom pins pins.length (made.map Prod.fst)).take n, P o := by
  intro o ho
  rw [take_pinFrom (by rw [List.length_map, count])] at ho
  rcases List.mem_append.mp ho with kept | added
  · exact old o (List.mem_of_mem_take kept)
  · obtain ⟨e, he, rfl⟩ := List.mem_map.mp added
    exact new e he

/-- Contents of a new size hold the handles of the old pins that still have a slot, and of the new ones. -/
theorem pinned_resized (N : h.Native cell q) (indirect : cell.type.isIndirect = true)
    {made : List (Object × Handle)} (handed : Handed h made) (count : made.length = n - q.pins.length)
    (typed : ∀ e ∈ made, e.1.toElem.type = cell.type) {backing : Backing} {h₂ : Heap}
    (handles : ∀ o, h₂.handleOf o = h.handleOf o)
    (contents : h₂.contents backing = (resizedContents h cell q n).overwrite (q.pins.length * 8)
      (made.flatMap (fun e => handleBytes e.2))) :
    h₂.Pinned { cell with capacity := n } { q with
      backing
      capacity := n
      pins := (pinFrom q.pins q.pins.length (made.map Prod.fst)).take n } where
  count := by
    change ((pinFrom q.pins q.pins.length (made.map Prod.fst)).take n).length = n
    rw [take_pinFrom (by rw [List.length_map, count]), List.length_append, List.length_take,
      List.length_map, count]
    omega
  typed := forall_resized_pins count (N.indirect indirect).typed typed
  word j o pin := by
    have P := N.indirect indirect
    have room := N.room.2
    rw [ElemType.nativeWidth_indirect indirect, ← P.count] at room
    rw [handles]
    refine ⟨?_, ?_⟩
    · refine forall_resized_pins (P := fun o => (h.handleOf o).isSome = true) count (fun o old => ?_)
        (fun e he => ?_) o (List.mem_of_getElem? pin)
      · obtain ⟨k, hk⟩ := List.getElem?_of_mem old
        exact (P.word k o hk).1
      · rw [(handed e he).2.1]
        exact (handed e he).2.2
    · rw [contents, handed.bytes, resizedContents, ElemType.nativeWidth_indirect indirect, ← P.count]
      exact words_resized h.handleOf room (by rw [List.length_map, count])
        (fun j o pin => (P.word j o pin).2) pin

theorem resizeNative_indirect (I : h.Intact) (found : h.vectors.find? v = some cell)
    (native : cell.buffer = none) (hp : cell.peer = some p) (hq : h.peers.find? p = some q)
    (N : h.Native cell q) (indirect : cell.type.isIndirect = true) (low : cell.length ≤ n)
    {made : List (Object × Handle)} (handed : Handed h made) (count : made.length = n - cell.capacity)
    (typed : ∀ e ∈ made, e.1.toElem.type = cell.type) {b : Backing} {h₁ : Heap}
    (moved : Resized h cell p q n b h₁) :
    ∃ h', (do
        writeHandles p cell.capacity made
        modify (·.modifyPeer p (fun peer => { peer with pins := peer.pins.take n }))
        modify (·.modifyVector v (fun cell => { cell with capacity := n })) : Op Unit) h₁ = .ok () h' ∧
      h.Updates v cell ((h.sequence cell).resize n (made.map (fun e => e.1.toElem))) h' ∧
      h.Meters cell.context (some p) h' ∧ h'.buffers.find? = h.buffers.find? ∧
      h'.foreign? v = none := by
  have P := N.indirect indirect
  rw [← P.count] at count ⊢
  have size : (h₁.contents b).length = 8 * n := by
    rw [moved.contents, resizedContents, Block.length_resized,
      ElemType.nativeWidth_indirect indirect]
  obtain ⟨backing, h₂, run, W⟩ := writeHandles_written moved.peer moved.backed
    moved.backed.address_ne_zero q.pins.length made (fun some => by
      have := List.length_pos_iff.mpr some
      refine ⟨by simp only; omega, ?_⟩
      rw [size]
      omega)
  have W' := W.pin (·.take n)
  have R₂ := (moved.revises none).trans (W'.revises none)
  obtain ⟨U, rest⟩ := updates_of_resized I found native hp hq N low moved W'
    (fun _ => pinned_resized N indirect handed count typed (fun o => R₂.handleOf o)
      (by rw [W'.contents, moved.contents]))
    (fun inline => absurd (indirect.symm.trans inline) (by decide))
    (forall_resized_pins count (fun o old => I.pins_alive hq o old) (fun e he => (handed e he).1))
  refine ⟨_, (bind_of_ok run).trans rfl, ?_, rest⟩
  -- the elements of indirect contents are what is pinned
  have sort : ({ cell with capacity := n } : VectorCell).type.isIndirect = true := indirect
  rw [Heap.nativeElements_indirect sort] at U
  have shows : ((pinFrom q.pins q.pins.length (made.map Prod.fst)).take n).map Object.toElem =
      (h.elements cell).take n ++ made.map (fun e => e.1.toElem) := by
    rw [take_pinFrom (by rw [List.length_map, count]), List.map_append, List.map_take, List.map_map,
      Heap.elements_native native hp hq, Heap.nativeElements_indirect indirect]
    rfl
  rw [Sequence.resize]
  rw [← show _ = (h.sequence cell).slots.take n ++ _ from shows]
  exact U

def filledContents (h : Heap) (cell : VectorCell) (q : Peer) (t : InlineType) (n : Nat) : Bytes :=
  (resizedContents h cell q n).overwrite (cell.capacity * t.width)
    (t.encodeAll (List.replicate (n - cell.capacity) t.na))

theorem resizeNative_inline (I : h.Intact) (found : h.vectors.find? v = some cell)
    (native : cell.buffer = none) (hp : cell.peer = some p) (hq : h.peers.find? p = some q)
    (N : h.Native cell q) {t : InlineType} (inline : InlineType.ofElemType? cell.type = some t)
    (low : cell.length ≤ n) {b : Backing} {h₁ : Heap} (moved : Resized h cell p q n b h₁) :
    ∃ h', (do
        fillMissing p cell.type cell.capacity (n - cell.capacity)
        modify (·.modifyVector v (fun cell => { cell with capacity := n })) : Op Unit) h₁ = .ok () h' ∧
      (h'.peerOf? (.vector v) = some p ∧
        ∃ q', h'.peers.find? p = some q' ∧ h'.contents q'.backing = filledContents h cell q t n) ∧
      h.Updates v cell
        ((h.sequence cell).resize n (List.replicate (n - cell.capacity) (.ofValue t t.na))) h' ∧
      h.Meters cell.context (some p) h' ∧ h'.buffers.find? = h.buffers.find? ∧
      h'.foreign? v = none := by
  obtain ⟨sort, direct⟩ := Heap.ofElemType_eq_some inline
  have width : cell.type.nativeWidth = t.width := congrArg ElemType.nativeWidth sort
  have room := N.room.2
  rw [width] at room
  have size : (h₁.contents b).length = t.width * n := by
    rw [moved.contents, resizedContents, Block.length_resized, width]
  have none : q.pins = [] := N.inline direct
  obtain ⟨backing, h₂, run, W⟩ := fillMissing_written inline moved.peer moved.backed
    moved.backed.address_ne_zero cell.capacity (n - cell.capacity) (fun some => by
      refine ⟨by simp only; omega, Nat.le_of_eq ?_⟩
      rw [size, show cell.capacity + (n - cell.capacity) = n by omega, Nat.mul_comm])
  obtain ⟨U, rest⟩ := updates_of_resized I found native hp hq N low moved W
    (fun indirect => absurd (direct.symm.trans indirect) (by decide)) (fun _ => none)
    (fun o ho => absurd (none ▸ ho) (by simp))
  refine ⟨_, (bind_of_ok run).trans rfl, ?_, ?_, rest⟩
  · have found₂ : h₂.vectors.find? v = some cell := by rw [W.vectors, moved.vectors]; exact found
    have found' : (h₂.modifyVector v (fun cell => { cell with capacity := n })).vectors.find? v =
        some { cell with capacity := n } := (h₂.vectors.find_modify_self v _).trans (by rw [found₂]; rfl)
    exact ⟨(Heap.peerOf_vector found').trans hp, _, W.peer,
      W.contents.trans (by rw [moved.contents, filledContents])⟩
  have sort' : InlineType.ofElemType? ({ cell with capacity := n } : VectorCell).type = some t := inline
  have shows := t.decodeAll_resized room (List.length_replicate (n := n - cell.capacity) (a := t.na))
  rw [Heap.nativeElements_inline sort', W.contents, moved.contents, resizedContents, width, shows] at U
  rw [Sequence.resize, Heap.sequence, Heap.elements_native native hp hq,
    Heap.nativeElements_inline inline, ← List.map_take, ← List.map_replicate, ← List.map_append]
  exact U

/-! ### Moving to another number of slots -/

theorem emptyAddress_run (I : h.Intact) (alive : h.has (.context c) = true) {n : Nat}
    (granted : n = 0 → ¬ Denied h c 0) :
    ∃ a h', emptyAddress c n h = .ok a h' ∧ (n = 0 → a ≠ 0 ∧ h'.sentinelOf? c = some a) ∧
      (n ≠ 0 → h' = h) ∧ h.Revises none none h' ∧ h'.buffers = h.buffers ∧
      h'.vectors = h.vectors ∧ h'.peers = h.peers := by
  unfold emptyAddress
  split
  · rename_i zero
    obtain ⟨a, h', run, nonzero, shared, rest⟩ := sentinel_run I alive (granted zero)
    exact ⟨a, h', run, fun _ => ⟨nonzero, shared⟩, fun some => absurd zero some, rest⟩
  · rename_i some
    exact ⟨0, h, rfl, fun zero => absurd zero some, fun _ => rfl, .refl _ _ _, rfl, rfl, rfl⟩

theorem resized_run (I : h.Intact) (hq : h.peers.find? p = some q) (N : h.Native cell q)
    (alive : h.has (.context cell.context) = true)
    (granted : ¬ Denied h cell.context (cell.type.nativeWidth * n)) :
    ∃ empty h₀ b h₁, emptyAddress cell.context n h = .ok empty h₀ ∧
      reallocate cell.context p cell.type.nativeWidth n empty h₀ = .ok () h₁ ∧
      Resized h₀ cell p q n b h₁ ∧ h.Revises none none h₀ ∧ h₀.buffers = h.buffers ∧
      h₀.vectors = h.vectors ∧ h₀.peers = h.peers := by
  obtain ⟨empty, h₀, made, sentinel, same, R, buffers, vectors, peers⟩ :=
    emptyAddress_run I alive (n := n) (fun zero denied => granted (by rwa [zero, Nat.mul_zero]))
  have room : n ≠ 0 → ¬ h₀.Refuses (cell.type.nativeWidth * n) := by
    intro positive refused
    have some : cell.type.nativeWidth * n ≠ 0 :=
      Nat.mul_ne_zero (Nat.ne_of_gt cell.type.nativeWidth_pos) positive
    rw [same positive, ← blockSize_of_pos some] at refused
    exact granted ⟨fun zero => absurd zero some, refused⟩
  obtain ⟨b, h₁, run, moved⟩ :=
    reallocate_run (R.native N) (peers ▸ hq) ((R.has _).trans alive) room sentinel
  exact ⟨empty, h₀, b, h₁, made, run, moved, R, buffers, vectors, peers⟩

theorem resizeNative_denied (hq : h.peers.find? p = some q) (N : h.Native cell q)
    (alive : h.has (.context cell.context) = true) (v : VectorId)
    (denied : Denied h cell.context (cell.type.nativeWidth * n)) (made : List (Object × Handle)) :
    resizeNative v cell p n made h = refusal (cell.type.nativeWidth * n) h := by
  unfold resizeNative emptyAddress
  by_cases zero : n = 0
  · subst zero
    rw [if_pos rfl]
    exact bind_of_error (sentinel_denied alive denied)
  · have some : cell.type.nativeWidth * n ≠ 0 :=
      Nat.mul_ne_zero (Nat.ne_of_gt cell.type.nativeWidth_pos) zero
    have refused := denied.2
    rw [blockSize_of_pos some] at refused
    have run := reallocate_denied N hq zero refused 0
    rw [if_neg zero]
    obtain ⟨f, h', stops, _⟩ := refusal_run (α := Unit) h cell.type n denied
    have stops' : refusal (α := Unit) (cell.type.nativeWidth * n) h = .error f h' := stops
    refine (bind_of_ok (pure_run 0 h)).trans ((bind_of_error (run.trans stops)).trans stops'.symm)

theorem setCapacity_direct (found : h.vectors.find? v = some cell) (native : cell.buffer = none)
    (hp : cell.peer = some p) (direct : cell.type.isIndirect = false) (low : cell.length ≤ n) :
    setCapacity v n h = resizeNative v cell p n [] h := by
  have pass : capacityPass v n [] h = (resizeNative v cell p n [] >>= fun _ => pure (.done ())) h := by
    unfold capacityPass
    rw [vector_bind found, if_neg (Nat.not_lt.mpr low), native]
    refine (bind_of_ok (nativePeer_run hp)).trans ?_
    simp only [direct, Bool.false_eq_true, false_and, if_false]
  cases run : resizeNative v cell p n [] h with
  | ok a h' => exact (bind_of_ok (pass.trans (bind_of_ok run))).trans rfl
  | error f h' => exact bind_of_error (pass.trans (bind_of_error run))

theorem setCapacity_denied (I : h.Intact) (found : h.vectors.find? v = some cell)
    (native : cell.buffer = none) (hp : cell.peer = some p) (hq : h.peers.find? p = some q)
    (N : h.Native cell q) (direct : cell.type.isIndirect = false) (low : cell.length ≤ n)
    (denied : Denied h cell.context (cell.type.nativeWidth * n)) :
    setCapacity v n h = refusal (cell.type.nativeWidth * n) h := by
  obtain ⟨ctx, hctx⟩ := I.context_of_vector found
  rw [setCapacity_direct found native hp direct low]
  exact resizeNative_denied hq N (Heap.has_context_iff.mpr ⟨ctx, hctx⟩) v denied []

/-- A native vector of an inline type has another capacity. Its slots moved to where nothing foreign is. -/
structure Refitted (h : Heap) (v : VectorId) (cell : VectorCell) (p : PeerId) (q : Peer) (n : Nat)
    (h' : Heap) : Prop where
  foreign : h'.foreign? v = none
  pointer : h'.peerOf? (.vector v) = some p
  contents : ∃ t q', InlineType.ofElemType? cell.type = some t ∧ h'.peers.find? p = some q' ∧
    h'.contents q'.backing = filledContents h cell q t n
  buffers : h'.buffers.find? = h.buffers.find?
  metered : h.Meters cell.context (some p) h'

theorem setCapacity_refits (I : h.Intact) (found : h.vectors.find? v = some cell)
    (native : cell.buffer = none) (hp : cell.peer = some p) (hq : h.peers.find? p = some q)
    (N : h.Native cell q) (direct : cell.type.isIndirect = false) (low : cell.length ≤ n)
    (granted : ¬ Denied h cell.context (cell.type.nativeWidth * n)) :
    ∃ h', setCapacity v n h = .ok () h' ∧ Refitted h v cell p q n h' := by
  obtain ⟨t, inline⟩ := Heap.ofElemType_of_direct direct
  obtain ⟨ctx, hctx⟩ := I.context_of_vector found
  obtain ⟨empty, h₀, b, h₁, made, run, moved, R, buffers, vectors, peers⟩ :=
    resized_run I hq N (Heap.has_context_iff.mpr ⟨ctx, hctx⟩) granted
  have moves : h.Moves Nowhere Nowhere h₀ := (Heap.Change.environs R buffers).moves
  have found₀ : h₀.vectors.find? v = some cell := vectors ▸ found
  have hq₀ : h₀.peers.find? p = some q := peers ▸ hq
  rw [setCapacity_direct found native hp direct low]
  obtain ⟨h', rest, ⟨pointer, q', hq', filled⟩, _, metered, same, gone⟩ :=
    resizeNative_inline (moves.intact I) found₀ native hp hq₀ (R.native N) inline low moved
  have before : filledContents h₀ cell q t n = filledContents h cell q t n := by
    have kept : h₀.contents q.backing = h.contents q.backing := by
      cases q.backing <;> simp only [Heap.contents, buffers]
    simp only [filledContents, resizedContents, kept]
  refine ⟨h', (bind_of_ok made).trans ((bind_of_ok run).trans ?_), gone, pointer,
    ⟨t, q', inline, hq', filled.trans before⟩, same.trans (by rw [buffers]), ?_⟩
  · rw [if_neg (by rw [direct]; decide)]
    exact rest
  · exact metered.since (R.counted rfl) (fun i => by rw [Heap.ownedBytes, Heap.ownedBytes, peers])

theorem setCapacity_inline (I : h.Intact) (found : h.vectors.find? v = some cell)
    (native : cell.buffer = none) (hp : cell.peer = some p) (hq : h.peers.find? p = some q)
    (N : h.Native cell q) (direct : cell.type.isIndirect = false) (low : cell.length ≤ n)
    (granted : ¬ Denied h cell.context (cell.type.nativeWidth * n)) :
    ∃ h', setCapacity v n h = .ok () h' ∧ h'.foreign? v = none := by
  obtain ⟨h', run, refitted⟩ := setCapacity_refits I found native hp hq N direct low granted
  exact ⟨h', run, refitted.foreign⟩

theorem resizeNative_performs (I : h.Intact) (found : h.vectors.find? v = some cell)
    (native : cell.buffer = none) (hp : cell.peer = some p) (low : cell.length ≤ n)
    {made : List (Object × Handle)} (handed : Handed h made)
    (count : cell.type.isIndirect = true → made.length = n - cell.capacity)
    (typed : ∀ e ∈ made, e.1.toElem.type = cell.type) :
    Performs (Only v) Nowhere (resizeNative v cell p n made) h
      (fun _ h' => h'.sequence? v = some ((h.sequence cell).resize n
        (match InlineType.ofElemType? cell.type with
          | some t => List.replicate (n - cell.capacity) (.ofValue t t.na)
          | none => made.map (fun e => e.1.toElem))))
      (fun f h' => NoRoom h cell.type n f ∧ h'.sequence? v = some (h.sequence cell)) := by
  obtain ⟨ctx, hctx⟩ := I.context_of_vector found
  have alive := Heap.has_context_iff.mpr ⟨ctx, hctx⟩
  obtain ⟨_, q, hp', hq, N⟩ := (I.vectors v cell found).native native
  cases hp.symm.trans hp'
  by_cases denied : Denied h cell.context (cell.type.nativeWidth * n)
  · obtain ⟨f, h', stops, noRoom, same⟩ := refusal_run (α := Unit) h cell.type n denied
    obtain ⟨M, shows, _⟩ := leaves_of_refused same found
    exact .of_error ((resizeNative_denied hq N alive v denied made).trans stops) M ⟨noRoom, shows⟩
  obtain ⟨a, h₀, b, h₁, start, run, moved, R, buffers, vectors, peers⟩ := resized_run I hq N alive denied
  have M : h.Moves (Only v) Nowhere h₀ := (Heap.Change.environs R buffers).moves
  have nowhere : h.Moves Nowhere Nowhere h₀ := (Heap.Change.environs R buffers).moves
  have I₀ := M.intact I
  have found₀ : h₀.vectors.find? v = some cell := vectors ▸ found
  obtain ⟨p', found', kept, same, _⟩ := nowhere.kept I found
  cases (kept p hp).trans hp.symm
  have hq₀ : h₀.peers.find? p = some q := peers ▸ hq
  have N₀ := R.native N
  have handed₀ := handed.later I M
  refine .after M (bind_of_ok start) ?_
  have F₀ := I₀.vectors v cell found₀
  have finish : ∀ {es : List Elem} {h' : Heap},
      h₀.Updates v cell ((h₀.sequence cell).resize n es) h' →
      h₀.Meters cell.context (some p) h' ∧ h'.buffers.find? = h₀.buffers.find? ∧
        h'.foreign? v = none → h₀.Moves (Only v) Nowhere h' := by
    rintro es h' U ⟨metered, same, own⟩
    refine (Heap.Change.update v cell _ (show Only v v from rfl) U (hp ▸ metered)
      (fun i _ => congrFun same i) (.resize low ?_ es)
      (fun _ b there => absurd (own.symm.trans there) (by simp))).moves
    exact F₀.length_le_elements
  rw [← same]
  cases inline : InlineType.ofElemType? cell.type with
  | some t =>
    obtain ⟨h', rest, _, U, kept⟩ :=
      resizeNative_inline I₀ found₀ native hp hq₀ N₀ inline low moved
    refine .of_ok (a := ()) ((bind_of_ok run).trans ?_) (finish U kept) U.sequence
    rw [if_neg (by rw [(Heap.ofElemType_eq_some inline).2]; decide)]
    exact rest
  | none =>
    have indirect := Heap.ofElemType_eq_none.mp inline
    obtain ⟨h', rest, U, kept⟩ := resizeNative_indirect I₀ found₀ native hp hq₀ N₀
      indirect low handed₀ (count indirect) typed moved
    refine .of_ok (a := ()) ((bind_of_ok run).trans ?_) (finish U kept) U.sequence
    rw [if_pos indirect]
    exact rest

end

/-! ### Another capacity -/

/-- There is no memory for so many slots, be it managed or native. -/
def Exceeds (h : Heap) (type : ElemType) (n : Nat) (f : Fault) : Prop :=
  NoRoom h type n f ∨ (f = .panic .capacityOverflow ∧ Buffer.maxBytes < n * type.managedWidth)

theorem Exceeds.since {h h' : Heap} {f : Fault} (A : h.Asks h') (exceeds : Exceeds h' type n f) :
    Exceeds h type n f :=
  exceeds.imp_left (NoRoom.since A)

def Refilled (h : Heap) (v : VectorId) (cell : VectorCell) (n : Nat) (h' : Heap) : Prop :=
  ∃ es, es.length = n - cell.capacity ∧ h.Fillers h' cell.context cell.type es ∧
    h'.sequence? v = some ((h.sequence cell).resize n es)

theorem capacityPass_managed (I : h.Intact) (found : h.vectors.find? v = some cell) {b : Buffer}
    (managed : cell.buffer = some b) (low : cell.length ≤ n) (made : List (Object × Handle)) :
    Performs (Only v) Nowhere (capacityPass v n made) h
      (fun r h' => ∃ a, r = .done a ∧ Refilled h v cell n h')
      (fun f h' => h'.sequence? v = some (h.sequence cell) ∧ Exceeds h cell.type n f) := by
  have F := I.vectors v cell found
  have M := F.managed b managed
  obtain ⟨ctx, hctx⟩ := I.context_of_vector found
  have alive := Heap.has_context_iff.mpr ⟨ctx, hctx⟩
  unfold capacityPass
  refine .after .refl (by rw [vector_bind found, if_neg (Nat.not_lt.mpr low), managed]) ?_
  refine Performs.bind (((resizeBuffer_performs I alive b n).mono
    (fun _ _ moves o => And.intro moves o) ?_).widen (fun _ => False.elim) (fun _ => id)) ?_
  · rintro f h₁ moves ⟨rfl, _, large⟩
    obtain ⟨p, found₁, _, same, _⟩ := moves.kept I found
    exact ⟨Heap.sequence_eq_some_iff.mpr ⟨_, found₁, same⟩, .inr ⟨rfl, M.type ▸ large⟩⟩
  · rintro b' h₁ _ ⟨moves, es, count, fillers, sort, slots⟩
    have I₁ := moves.intact I
    obtain ⟨p, found₁, _, same, _⟩ := moves.kept I found
    let h' := h₁.modifyVector v (fun cell => { cell with buffer := some b', capacity := n })
    have found' : h'.vectors.find? v = some { cell with peer := p, buffer := some b', capacity := n } :=
      (h₁.vectors.find_modify_self v _).trans (by rw [found₁]; rfl)
    have R : h₁.Revises (some v) none h' :=
      (Heap.Revises.refl h₁ _ _).modifyVector v _ rfl (fun _ => rfl)
    have room : b'.capacity = n := by
      rw [Buffer.capacity, slots, List.length_append, List.length_take, count]
      simp only [Buffer.capacity]
      omega
    have U := Heap.updates_of_managed I₁ found₁ R found' managed rfl (sort.trans M.type) room low
      (fun r hr => by
        obtain ⟨e, he, o, ho, rfl⟩ := Heap.mem_buffer_refs.mp hr
        rw [slots] at he
        rcases List.mem_append.mp he with old | new
        · exact moves.has I (F.refs _ (Heap.mem_vector_refs.mpr (.inr (.inr ⟨b, managed,
            Heap.mem_buffer_refs.mpr ⟨e, List.mem_of_mem_take old, o, ho, rfl⟩⟩))))
        · rw [Heap.has_ofObject]
          exact Heap.isAlive_iff_contextOf.mpr ⟨_, (fillers.fillers e new).own I₁ ho⟩)
    have shown : (⟨cell.type, b'.slots, cell.length, cell.complete, cell.sharing⟩ : Sequence) =
        (h₁.sequence { cell with peer := p }).resize n es := by
      rw [same, slots, ← Heap.elements_managed managed]
      rfl
    have continues : (h₁.sequence { cell with peer := p }).Continues h₁.isNA _ :=
      .resize low (by rw [same]; exact F.length_le_elements) es
    have last : h₁.Moves (Only v) Nowhere h' :=
      (Heap.Change.update v _ _ (show Only v v from rfl) U (R.meters _ _) (fun _ _ => rfl)
        (shown ▸ continues) (fun _ b there => (R.foreign v).symm.trans there)).moves
    refine .of_ok rfl last ⟨(), rfl, es, count.trans (congrArg _ M.capacity), ?_, ?_⟩
    · refine (M.type ▸ fillers).later I₁ last (fun w hw => ?_)
      cases hw
      exact Heap.has_vector_iff.mpr ⟨cell, found⟩
    · rw [U.sequence, slots, ← Heap.elements_managed managed]
      rfl

theorem capacityPass_native (I : h.Intact) (found : h.vectors.find? v = some cell)
    (native : cell.buffer = none) (low : cell.length ≤ n) (made : List (Object × Handle))
    (handed : Handed h made) (count : cell.type.isIndirect = true → made.length = n - cell.capacity)
    (typed : ∀ e ∈ made, e.1.toElem.type = cell.type) :
    Performs (Only v) Nowhere (capacityPass v n made) h
      (fun r h' => ∃ a, r = .done a ∧ h'.sequence? v = some ((h.sequence cell).resize n
        (match InlineType.ofElemType? cell.type with
          | some t => List.replicate (n - cell.capacity) (.ofValue t t.na)
          | none => made.map (fun e => e.1.toElem))))
      (fun f h' => h'.sequence? v = some (h.sequence cell) ∧ Exceeds h cell.type n f) := by
  obtain ⟨p, q, hp, hq, N⟩ := (I.vectors v cell found).native native
  have enough : ¬ (cell.type.isIndirect = true ∧ made.length ≠ n - cell.capacity) := fun short =>
    short.2 (count short.1)
  unfold capacityPass
  refine .after .refl (by rw [vector_bind found, if_neg (Nat.not_lt.mpr low), native]) ?_
  refine .after .refl (bind_of_ok (nativePeer_run hp)) ?_
  simp only [if_neg enough]
  refine ((resizeNative_performs I found native hp low handed count typed).mono
    (fun _ _ _ => id) (fun f h' _ stop => ⟨stop.2, .inl stop.1⟩)).bind (fun _ h' _ shows => ?_)
  exact .pure ⟨(), rfl, shows⟩

/-- The first pass over native contents makes the fillers. -/
theorem capacityPass_fillers (I : h.Intact) (found : h.vectors.find? v = some cell)
    (native : cell.buffer = none) (low : cell.length ≤ n) (indirect : cell.type.isIndirect = true)
    (grown : n - cell.capacity ≠ 0) :
    Performs Nowhere Nowhere (capacityPass v n []) h
      (fun r h' => ∃ made, r = .again made ∧ made.length = n - cell.capacity ∧ Handed h' made ∧
        h.Fillers h' cell.context cell.type (made.map (fun e => e.1.toElem))) stops := by
  obtain ⟨p, q, hp, hq, N⟩ := (I.vectors v cell found).native native
  obtain ⟨ctx, hctx⟩ := I.context_of_vector found
  have short : cell.type.isIndirect = true ∧
      ([] : List (Object × Handle)).length ≠ n - cell.capacity := ⟨indirect, grown.symm⟩
  unfold capacityPass
  refine .after .refl (by rw [vector_bind found, if_neg (Nat.not_lt.mpr low), native]) ?_
  refine .after .refl (bind_of_ok (nativePeer_run hp)) ?_
  simp only [if_pos short]
  refine (nativeFillers_performs I (Heap.has_context_iff.mpr ⟨ctx, hctx⟩) indirect _).bind
    (fun made h' _ fillers => ?_)
  exact .pure ⟨made, rfl, fillers⟩

/-- Capacity moves but for two reasons: it would go below the length, or there is no memory for
the slots. Then the vector shows no change. -/
theorem setCapacity_performs (I : h.Intact) (found : h.vectors.find? v = some cell) (n : Nat) :
    Performs (Only v) Nowhere (setCapacity v n) h
      (fun _ h' => cell.length ≤ n ∧ Refilled h v cell n h')
      (fun f h' => h'.sequence? v = some (h.sequence cell) ∧
        ((n < cell.length ∧ f = .error (.capacityBelowLength n cell.length)) ∨
          (cell.length ≤ n ∧ Exceeds h cell.type n f))) := by
  by_cases below : n < cell.length
  · refine .retry (.of_error (f := .error (.capacityBelowLength n cell.length)) ?_ .refl
      ⟨Heap.sequence_eq_some_iff.mpr ⟨cell, found, rfl⟩, .inl ⟨below, rfl⟩⟩)
    unfold capacityPass
    rw [vector_bind found, if_pos below]
    rfl
  · have low : cell.length ≤ n := Nat.le_of_not_lt below
    cases hb : cell.buffer with
    | some b =>
      exact .retry_done ((capacityPass_managed I found hb low []).mono
        (fun _ _ _ ⟨a, done, refilled⟩ => ⟨a, done, low, refilled⟩)
        (fun _ _ _ stop => ⟨stop.1, .inr ⟨low, stop.2⟩⟩))
    | none =>
      cases inline : InlineType.ofElemType? cell.type with
      | some t =>
        have direct := (Heap.ofElemType_eq_some inline).2
        refine .retry_done ((capacityPass_native I found hb low []
          (by simp [Handed]) (fun indirect => absurd (direct.symm.trans indirect) (by decide))
          (by simp)).mono ?_ (fun _ _ _ stop => ⟨stop.1, .inr ⟨low, stop.2⟩⟩))
        rintro r h' _ ⟨a, done, shows⟩
        rw [inline] at shows
        exact ⟨a, done, low, _, List.length_replicate, .inline inline _, shows⟩
      | none =>
        -- Growth makes the fillers in a pass of its own, and the next one starts from their heap.
        have indirect := Heap.ofElemType_eq_none.mp inline
        by_cases grown : n - cell.capacity = 0
        · refine .retry_done ((capacityPass_native I found hb low [] (by simp [Handed])
            (fun _ => grown.symm) (by simp)).mono ?_ (fun _ _ _ stop => ⟨stop.1, .inr ⟨low, stop.2⟩⟩))
          rintro r h' _ ⟨a, done, shows⟩
          rw [inline] at shows
          exact ⟨a, done, low, [], grown.symm, ⟨by simp, by simp, fun _ => .nil⟩, shows⟩
        · refine .retry_again (((capacityPass_fillers I found hb low indirect grown).mono
            (fun _ _ moves o => And.intro moves o) (fun _ _ _ => id)).widen (fun _ => False.elim)
            (fun _ => id) |>.mono ?_ (fun _ _ _ => id))
          rintro r h₁ _ ⟨moves, made, rfl, count, handed, fillers⟩
          refine ⟨made, rfl, ?_⟩
          obtain ⟨p, q, hp, _⟩ := (I.vectors v cell found).native hb
          obtain ⟨p', found₁, kept, same, _⟩ := moves.kept I found
          cases (kept p hp).trans hp.symm
          refine .retry_done ((capacityPass_native (moves.intact I) found₁ hb low made handed
            (fun _ => count) (fun e he => ?_)).mono ?_
            (fun _ _ _ stop => ⟨same ▸ stop.1, .inr ⟨low, stop.2.since moves.asks⟩⟩))
          · exact (fillers.fillers _ (List.mem_map_of_mem he)).type_eq
          · rintro r h' last ⟨a, done, shows⟩
            rw [inline, same] at shows
            refine ⟨a, done, low, _, by rw [List.length_map, count], ?_, shows⟩
            refine fillers.later (moves.intact I) last (fun w hw => ?_)
            cases hw
            exact Heap.has_vector_iff.mpr ⟨cell, found⟩

end VectorHeap.Op
