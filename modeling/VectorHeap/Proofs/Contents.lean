import VectorHeap.Proofs.Heap.Update
import VectorHeap.Proofs.Operation

/-! Native contents: what reading, writing, making and moving them comes to. -/
namespace VectorHeap

namespace Heap

variable {h h' : Heap}

theorem placement_ne_zero (h : Heap) (bytes : Nat) (moved : Option Address) :
    h.placement bytes moved ≠ 0 := by
  simp only [placement]
  split
  · exact Nat.succ_ne_zero _
  · rename_i free
    exact fun zero => free (.inl zero)

def placed (h : Heap) : Heap := { h with allocations := h.allocations + 1 }

abbrev Refuses (h : Heap) (bytes : Nat) : Prop := Block.Refused h.grants bytes

theorem Refuses.scarce {bytes : Nat} (refused : h.Refuses bytes) : h.Scarce bytes :=
  ⟨h.allocations, Nat.le_refl _, refused⟩

theorem revises_placed (h : Heap) (v : Option VectorId) (p : Option PeerId) :
    h.Revises v p h.placed :=
  (Revises.refl h v p).place (Nat.le_succ _)

theorem Backed.address_ne_zero {cell : VectorCell} {b : Backing} (B : h.Backed cell b) :
    b.address ≠ 0 := by
  cases b with
  | unallocated => exact B.elim
  | _ => exact B.1

theorem Native.room {cell : VectorCell} {q : Peer} (N : h.Native cell q) :
    q.backing.address ≠ 0 ∧ cell.capacity * cell.type.nativeWidth ≤ (h.contents q.backing).length := by
  have B := N.backed
  cases hb : q.backing with
  | unallocated => rw [hb] at B; exact B.elim
  | empty a =>
    rw [hb] at B
    exact ⟨B.1, by rw [B.2.2, Nat.zero_mul]; exact Nat.zero_le _⟩
  | owned a bytes =>
    rw [hb] at B
    exact ⟨B.1, by rw [Nat.mul_comm]; exact Nat.le_of_eq B.2.1.symm⟩
  | external a b =>
    rw [hb] at B
    obtain ⟨nonzero, _, foreign, found, _, size⟩ := B
    refine ⟨nonzero, ?_⟩
    rw [contents, found, Nat.mul_comm]
    exact size

theorem Native.isAllocated {cell : VectorCell} {q : Peer} (N : h.Native cell q) :
    q.backing.isAllocated = true := by
  have B := N.backed
  cases hb : q.backing with
  | unallocated => rw [hb] at B; exact B.elim
  | _ => rfl

structure Written (h : Heap) (cell : VectorCell) (p : PeerId) (q : Peer) (offset : Nat) (data : Bytes)
    (backing : Backing) (pins : List Object) (h' : Heap) : Prop where
  revises : ∀ v, h.Revises v (some p) h'
  vectors : h'.vectors = h.vectors
  buffers : ∀ b, (∀ a, q.backing ≠ .external a b) → h'.buffers.find? b = h.buffers.find? b
  peer : h'.peers.find? p = some { q with backing, pins }
  contents : h'.contents backing = (h.contents q.backing).overwrite offset data
  backed : h'.Backed cell backing
  foreign : ∀ a b, backing = .external a b → q.backing = .external a b
  counted : ∀ c, h'.liveBytes c = h.liveBytes c
  owned : ∀ i, h'.ownedBytes i = h.ownedBytes i

section
variable {cell : VectorCell} {p : PeerId} {q : Peer} {offset : Nat} {data : Bytes}

theorem Written.nothing (hq : h.peers.find? p = some q) (backed : h.Backed cell q.backing)
    (offset : Nat) : h.Written cell p q offset [] q.backing q.pins h where
  revises _ := .refl _ _ _
  vectors := rfl
  buffers _ _ := rfl
  peer := hq
  contents := (Bytes.overwrite_nil _ _).symm
  backed := backed
  foreign _ _ := id
  counted _ := rfl
  owned _ := rfl

theorem Written.pin {backing : Backing} {pins : List Object}
    (W : h.Written cell p q offset data backing pins h') (f : List Object → List Object) :
    h.Written cell p q offset data backing (f pins)
      (h'.modifyPeer p (fun peer => { peer with pins := f peer.pins })) where
  revises v := (W.revises v).modifyPeer p _ rfl (fun _ => rfl)
  vectors := W.vectors
  buffers := W.buffers
  peer := (h'.peers.find_modify_self p _).trans (by rw [W.peer]; rfl)
  contents := W.contents
  backed := W.backed.transport (fun _ => id) (fun _ _ => rfl)
  foreign := W.foreign
  counted := W.counted
  owned i := (h'.ownedBytes_modifyPeer p (fun peer => { peer with pins := f peer.pins })
    (fun _ _ => rfl) i).trans (W.owned i)

theorem written_owned {a : Address} {bytes : Bytes} (hq : h.peers.find? p = some q)
    (hb : q.backing = .owned a bytes) (backed : h.Backed cell (.owned a bytes))
    (fits : offset + data.length ≤ bytes.length) :
    h.Written cell p q offset data (.owned a (bytes.overwrite offset data)) q.pins
      (h.overwrite p offset data) := by
  have same : h.overwrite p offset data = h.modifyPeer p
      (fun peer => { peer with backing := .owned a (bytes.overwrite offset data) }) := by
    simp only [overwrite, hq, Option.map_some, Option.getD_some, hb]
  have length := Bytes.length_overwrite bytes offset data fits
  rw [same]
  exact
    { revises := fun v => (Revises.refl _ _ _).modifyPeer p _ rfl (fun _ => rfl)
      vectors := rfl
      buffers := fun _ _ => rfl
      peer := (h.peers.find_modify_self p _).trans (by rw [hq]; rfl)
      contents := by rw [hb]; rfl
      backed := ⟨backed.1, by rw [length]; exact backed.2.1, by rw [length]; exact backed.2.2⟩
      foreign := by simp
      counted := fun _ => rfl
      owned := h.ownedBytes_modifyPeer p _ (fun q' hq' => by
        cases hq.symm.trans hq'
        rw [hb]
        exact length) }

theorem written_external {a : Address} {b : BufferId} (hq : h.peers.find? p = some q)
    (hb : q.backing = .external a b) (backed : h.Backed cell (.external a b))
    (fits : offset + data.length ≤ (h.contents (.external a b)).length) :
    h.Written cell p q offset data (.external a b) q.pins (h.overwrite p offset data) := by
  have same : h.overwrite p offset data =
      h.modifyBuffer b (fun f => { f with bytes := f.bytes.overwrite offset data }) := by
    simp only [overwrite, hq, Option.map_some, Option.getD_some, hb]
  obtain ⟨nonzero, inline, foreign, there, address, size⟩ := backed
  rw [contents, there] at fits
  have length := Bytes.length_overwrite foreign.bytes offset data fits
  have after : (h.overwrite p offset data).buffers.find? b =
      some { foreign with bytes := foreign.bytes.overwrite offset data } := by
    rw [same]
    exact (h.buffers.find_modify_self b _).trans (by rw [there]; rfl)
  refine
    { revises := fun v => ?_
      vectors := by rw [same]; rfl
      buffers := fun b' other => ?_
      peer := by rw [same, ← hb]; exact hq
      contents := by rw [hb, contents, contents, after, there]; rfl
      backed := ⟨nonzero, inline, _, after, address, by rw [length]; exact size⟩
      foreign := by rw [hb]; exact fun _ _ => id
      counted := fun _ => by rw [same]; rfl
      owned := fun _ => by rw [same]; rfl }
  · rw [same]
    refine (Revises.refl _ _ _).modifyBuffer b _ (fun f hf => ?_)
    cases there.symm.trans hf
    simp only [ForeignBuffer.extent, length]
  · rw [same]
    refine h.buffers.find_modify_ne _ (fun e => other a ?_)
    rw [hb, e]

theorem written (hq : h.peers.find? p = some q) (backed : h.Backed cell q.backing)
    (fits : offset + data.length ≤ (h.contents q.backing).length) :
    ∃ backing, h.Written cell p q offset data backing q.pins (h.overwrite p offset data) := by
  cases hb : q.backing with
  | unallocated =>
    rw [hb] at backed
    exact backed.elim
  | empty a =>
    -- there is room for nothing
    have same : h.overwrite p offset data = h := by
      simp only [overwrite, hq, Option.map_some, Option.getD_some, hb]
    rw [hb] at fits
    have nothing : offset = 0 ∧ data = [] := by
      simp only [contents, List.length_nil, Nat.le_zero, Nat.add_eq_zero_iff,
        List.length_eq_zero_iff] at fits
      exact fits
    rw [same, nothing.2]
    exact ⟨_, .nothing hq backed offset⟩
  | owned a bytes =>
    rw [hb] at backed fits
    exact ⟨_, written_owned hq hb backed fits⟩
  | external a b =>
    rw [hb] at backed fits
    exact ⟨_, written_external hq hb backed fits⟩

end

end Heap

/-! ### Pins and handles -/

theorem getElem?_pinAt {pins : List Object} {slot : Nat} (fits : slot ≤ pins.length) (o : Object)
    (j : Nat) : (pinAt pins slot o)[j]? = if j = slot then some o else pins[j]? := by
  unfold pinAt
  by_cases inside : slot < pins.length
  · rw [if_pos inside, List.getElem?_set]
    by_cases same : slot = j
    · subst same
      rw [if_pos rfl, if_pos inside, if_pos rfl]
    · rw [if_neg same, if_neg (Ne.symm same)]
  · have last : slot = pins.length := by omega
    rw [if_neg inside, List.getElem?_append, last]
    by_cases before : j < pins.length
    · rw [if_pos before, if_neg (by omega)]
    · rw [if_neg before]
      by_cases same : j = pins.length
      · subst same
        simp
      · have past : [o].length ≤ j - pins.length := by rw [List.length_singleton]; omega
        rw [if_neg same, List.getElem?_eq_none past, List.getElem?_eq_none (by omega)]

theorem length_pinAt (pins : List Object) (slot : Nat) (o : Object) :
    (pinAt pins slot o).length = if slot < pins.length then pins.length else pins.length + 1 := by
  unfold pinAt
  split <;> simp

theorem getElem?_pinFrom {pins : List Object} {slot : Nat} (fits : slot ≤ pins.length)
    (os : List Object) (j : Nat) :
    (pinFrom pins slot os)[j]? =
      if slot ≤ j ∧ j < slot + os.length then os[j - slot]? else pins[j]? := by
  induction os generalizing pins slot with
  | nil =>
    have outside : ¬ (slot ≤ j ∧ j < slot + ([] : List Object).length) := by simp
    rw [if_neg outside]
    rfl
  | cons o os ih =>
    have room : slot + 1 ≤ (pinAt pins slot o).length := by
      rw [length_pinAt]
      split <;> omega
    rw [pinFrom, ih room, getElem?_pinAt fits, List.length_cons]
    by_cases first : j = slot
    · subst first
      rw [if_neg (by omega), if_pos rfl, if_pos (by omega), Nat.sub_self]
      rfl
    · by_cases inside : slot + 1 ≤ j ∧ j < slot + 1 + os.length
      · rw [if_pos inside, if_pos (by omega)]
        obtain ⟨k, rfl⟩ := Nat.exists_eq_add_of_le inside.1
        rw [Nat.add_sub_cancel_left, show slot + 1 + k - slot = k + 1 by omega,
          List.getElem?_cons_succ]
      · rw [if_neg inside, if_neg first, if_neg (by omega)]

theorem words_pinFrom {bs : Bytes} {pins : List Object} {slot : Nat} (handle : Object → Handle)
    (os : List Object) (fits : slot ≤ pins.length) (room : slot * 8 ≤ bs.length)
    (old : ∀ j o, pins[j]? = some o → ¬ (slot ≤ j ∧ j < slot + os.length) →
      bs.slot 8 j = Op.handleBytes (handle o))
    {j : Nat} {o : Object} (pin : (pinFrom pins slot os)[j]? = some o) :
    Bytes.slot (bs.overwrite (slot * 8) (os.flatMap (fun o => Op.handleBytes (handle o)))) 8 j =
      Op.handleBytes (handle o) := by
  have size := Bytes.length_flatMap os (fun o _ => length_handleBytes (handle o))
  rw [getElem?_pinFrom fits] at pin
  by_cases inside : slot ≤ j ∧ j < slot + os.length
  · rw [if_pos inside] at pin
    obtain ⟨k, rfl⟩ := Nat.exists_eq_add_of_le inside.1
    rw [Nat.add_sub_cancel_left] at pin
    rw [Bytes.slot_overwrite_inside bs 8 slot _ _ size room (by omega)]
    exact Bytes.slot_flatMap os (fun o _ => length_handleBytes (handle o)) pin
  · rw [if_neg inside] at pin
    rw [Bytes.slot_overwrite_outside bs 8 slot _ _ size room (by omega)]
    exact old j o pin inside

theorem pinFrom_length (pins os : List Object) : pinFrom pins pins.length os = pins ++ os := by
  induction os generalizing pins with
  | nil => rw [pinFrom, List.append_nil]
  | cons o os ih =>
    have last : pinAt pins pins.length o = pins ++ [o] := if_neg (Nat.lt_irrefl _)
    have rest := ih (pins ++ [o])
    rw [List.length_append, List.length_singleton] at rest
    rw [pinFrom, last, rest, List.append_assoc]
    rfl

/-- In contents of another size each slot holds the handle of its pin again. -/
theorem words_resized {bs : Bytes} {pins os : List Object} {n : Nat} (handle : Object → Handle)
    (room : pins.length * 8 ≤ bs.length) (count : os.length = n - pins.length)
    (old : ∀ j o, pins[j]? = some o → bs.slot 8 j = Op.handleBytes (handle o))
    {j : Nat} {o : Object} (pin : ((pinFrom pins pins.length os).take n)[j]? = some o) :
    Bytes.slot ((Block.resized (bs.take (pins.length * 8)) (8 * n)).overwrite (pins.length * 8)
      (os.flatMap (fun o => Op.handleBytes (handle o)))) 8 j = Op.handleBytes (handle o) := by
  rw [List.getElem?_take] at pin
  split at pin
  case isFalse => exact absurd pin (by simp)
  rename_i inside
  have kept : ∀ k x, pins[k]? = some x → k < n →
      Bytes.slot (Block.resized (bs.take (pins.length * 8)) (8 * n)) 8 k = Op.handleBytes (handle x) := by
    intro k x hk lt
    have bound : k < pins.length := (List.getElem?_eq_some_iff.mp hk).1
    have stop : (k + 1) * 8 ≤ pins.length * 8 := Nat.mul_le_mul_right 8 bound
    rw [Bytes.slot_resized _ _ _ (by rw [List.length_take]; omega) (by omega),
      Bytes.slot_take _ _ _ stop]
    exact old k x hk
  by_cases grown : pins.length ≤ n
  · have length : (Block.resized (bs.take (pins.length * 8)) (8 * n)).length = 8 * n :=
      Block.length_resized _ _
    refine words_pinFrom handle os (Nat.le_refl _) (by rw [length]; omega) (fun k x hk _ => ?_) pin
    exact kept k x hk (Nat.lt_of_lt_of_le (List.getElem?_eq_some_iff.mp hk).1 grown)
  · have none : os = [] := List.length_eq_zero_iff.mp (by omega)
    subst none
    rw [List.flatMap_nil, Bytes.overwrite_nil]
    exact kept j o pin inside

namespace Op

variable {h : Heap} {T : VectorId → Prop} {B : BufferId → Prop} {stops : Fault → Heap → Prop}

/-! ### Slots -/

theorem contentsTo_run {q : Peer} {stop : Nat} (inside : stop ≤ (h.contents q.backing).length) :
    contentsTo q stop h = .ok (h.contents q.backing) h := by
  unfold contentsTo
  rw [get_bind, if_neg (Nat.not_lt.mpr inside)]
  rfl

theorem accessed_run {p : PeerId} {q : Peer} (found : h.peers.find? p = some q) {width slot count : Nat}
    (allocated : q.backing.address ≠ 0) (window : slot + count ≤ max q.capacity q.length)
    (inside : (slot + count) * width ≤ (h.contents q.backing).length) :
    accessed p width slot count h = .ok (h.contents q.backing) h := by
  have first : Op.allocated p h = .ok q h := by
    unfold Op.allocated
    rw [peer_bind found, if_neg allocated]
    rfl
  unfold accessed
  rw [bind_of_ok first, if_neg (Nat.not_lt.mpr window)]
  exact contentsTo_run inside

theorem readSlot_run {p : PeerId} {q : Peer} (found : h.peers.find? p = some q) {width slot : Nat}
    (allocated : q.backing.address ≠ 0) (window : slot < max q.capacity q.length)
    (inside : (slot + 1) * width ≤ (h.contents q.backing).length) :
    readSlot p width slot h = .ok ((h.contents q.backing).slot width slot) h := by
  unfold readSlot
  rw [bind_of_ok (accessed_run found allocated window inside)]
  rfl

theorem writeSlots_run {p : PeerId} {q : Peer} (found : h.peers.find? p = some q)
    {width slot count : Nat} {data : Bytes} (size : data.length = count * width) (wide : 0 < width)
    (allocated : q.backing.address ≠ 0) (window : slot + count ≤ max q.capacity q.length)
    (inside : (slot + count) * width ≤ (h.contents q.backing).length) :
    writeSlots p width slot data h = .ok () (h.overwrite p (slot * width) data) := by
  have slots : data.length / width = count := by rw [size, Nat.mul_div_cancel _ wide]
  unfold writeSlots
  rw [slots, bind_of_ok (accessed_run found allocated window inside)]
  rfl

theorem writeHandles_run {p : PeerId} {q : Peer} (found : h.peers.find? p = some q) {slot : Nat}
    {elements : List (Object × Handle)} (some : elements ≠ []) (allocated : q.backing.address ≠ 0)
    (window : slot + elements.length ≤ max q.capacity q.length)
    (inside : (slot + elements.length) * 8 ≤ (h.contents q.backing).length) :
    writeHandles p slot elements h = .ok ()
      ((h.overwrite p (slot * 8) (elements.flatMap (fun e => handleBytes e.2))).modifyPeer p
        (fun peer => { peer with pins := pinFrom peer.pins slot (elements.map Prod.fst) })) := by
  have size := Bytes.length_flatMap elements (fun e _ => length_handleBytes e.2)
  have nonempty : elements.isEmpty = false := by simpa using some
  unfold writeHandles
  rw [nonempty]
  exact bind_of_ok (writeSlots_run found size (by decide) allocated window inside)

theorem writeHandles_written {cell : VectorCell} {p : PeerId} {q : Peer}
    (found : h.peers.find? p = some q) (backed : h.Backed cell q.backing)
    (allocated : q.backing.address ≠ 0) (slot : Nat) (elements : List (Object × Handle))
    (window : elements ≠ [] → slot + elements.length ≤ max q.capacity q.length ∧
      (slot + elements.length) * 8 ≤ (h.contents q.backing).length) :
    ∃ backing h', writeHandles p slot elements h = .ok () h' ∧
      h.Written cell p q (slot * 8) (elements.flatMap (fun e => handleBytes e.2)) backing
        (pinFrom q.pins slot (elements.map Prod.fst)) h' := by
  by_cases some : elements = []
  · subst some
    exact ⟨q.backing, h, rfl, .nothing found backed _⟩
  · obtain ⟨room, inside⟩ := window some
    have size := Bytes.length_flatMap elements (fun e _ => length_handleBytes e.2)
    obtain ⟨backing, W⟩ := Heap.written found backed (by rw [size, ← Nat.add_mul]; exact inside)
    exact ⟨backing, _, writeHandles_run found some allocated room inside,
      W.pin (fun pins => pinFrom pins slot (elements.map Prod.fst))⟩

/-! ### Blocks -/

theorem byteSize_run (width slots : Nat) :
    byteSize width slots h =
      if UInt64.size ≤ width * slots then .error (.panic .multiplyOverflow) h
      else .ok (width * slots) h := by
  unfold byteSize
  split <;> rfl

theorem request_run {answer : (Nat → Bool) → Except Error Bytes} {size : Nat} {bytes : Bytes}
    (answers : answer h.grants =
      if h.Refuses size then .error (.allocationFailure size) else .ok bytes) (moved : Option Address) :
    request size moved answer h =
      if h.Refuses size then .error (.error (.allocationFailure size)) h.placed
      else .ok (h.placement size moved, bytes) h.placed := by
  unfold request
  have placed : place size moved h = .ok (h.placement size moved) h.placed := rfl
  refine (get_bind _).trans ((bind_of_ok placed).trans ?_)
  rw [answers]
  split <;> rfl

theorem ownBlock_run (old : Bytes) (size : Nat) (moved : Option Address) :
    ownBlock old size moved h =
      if h.Refuses size then .error (.error (.allocationFailure size)) h.placed
      else .ok (.owned (h.placement size moved) (Block.resized old size)) h.placed := by
  have run := request_run (Block.reallocate_eq old size h.grants) moved
  by_cases refused : h.Refuses size
  · rw [if_pos refused] at run ⊢
    exact bind_of_error run
  · rw [if_neg refused] at run ⊢
    exact bind_of_ok run

theorem install_run {p : PeerId} {q : Peer} (found : h.peers.find? p = some q)
    (bare : q.backing = .unallocated) (c : ContextId) (backing : Backing) (length capacity : Nat)
    (pins : List Object) :
    install c p backing length capacity pins h = .ok ()
      ((h.modifyPeer p (fun peer => { peer with backing, length, capacity, pins })).modifyRegistry c
        (·.addContents q.handle backing)) := by
  unfold install
  rw [peer_bind found, bare]
  rfl

theorem sentinel_made {c : ContextId} {ctx : Context} {a : Address}
    (found : h.contexts.find? c = some ctx) (made : ctx.sentinel = some a) :
    sentinel c h = .ok a h := by
  refine (context_bind found _).trans ?_
  rw [made]
  rfl

theorem sentinel_unmade {c : ContextId} {ctx : Context} (found : h.contexts.find? c = some ctx)
    (unmade : ctx.sentinel = none) :
    sentinel c h =
      if h.Refuses sentinelSize then .error (.error (.allocationFailure sentinelSize)) h.placed
      else .ok (h.placement sentinelSize none) (h.placed.modifyContext c
        (fun ctx => { ctx with sentinel := some (h.placement sentinelSize none) })) := by
  have answer := request_run (Block.allocate_eq sentinelSize h.grants) none
  refine (context_bind found _).trans ?_
  rw [unmade]
  by_cases refused : h.Refuses sentinelSize
  · rw [if_pos refused] at answer ⊢
    exact bind_of_error answer
  · rw [if_neg refused] at answer ⊢
    exact bind_of_ok answer

def blockSize (size : Nat) : Nat := if size = 0 then sentinelSize else size

/-- The allocator refuses what contents of a size take: a block, or the sentinel of the context if it is
yet to be made. -/
def Denied (h : Heap) (c : ContextId) (size : Nat) : Prop :=
  (size = 0 → h.sentinelOf? c = none) ∧ h.Refuses (blockSize size)

theorem sentinel_denied {c : ContextId} (alive : h.has (.context c) = true) (denied : Denied h c 0) :
    sentinel c h = .error (.error (.allocationFailure sentinelSize)) h.placed := by
  obtain ⟨ctx, found⟩ := Heap.has_context_iff.mp alive
  have unmade : ctx.sentinel = none := by
    simpa [Heap.sentinelOf?, found] using denied.1 rfl
  exact (sentinel_unmade found unmade).trans (if_pos denied.2)

theorem sentinel_run {c : ContextId} (I : h.Intact) (alive : h.has (.context c) = true)
    (granted : ¬ Denied h c 0) :
    ∃ a h', sentinel c h = .ok a h' ∧ a ≠ 0 ∧ h'.sentinelOf? c = some a ∧ h.Revises none none h' ∧
      h'.buffers = h.buffers ∧ h'.vectors = h.vectors ∧ h'.peers = h.peers := by
  obtain ⟨ctx, found⟩ := Heap.has_context_iff.mp alive
  cases hs : ctx.sentinel with
  | some a =>
    refine ⟨a, h, sentinel_made found hs, (I.contexts c ctx found).sentinel a hs, ?_, .refl _ _ _,
      rfl, rfl, rfl⟩
    rw [Heap.sentinelOf?, found]
    exact hs
  | none =>
    have room : ¬ h.Refuses sentinelSize := fun refused =>
      granted ⟨fun _ => by rw [Heap.sentinelOf?, found]; exact hs, refused⟩
    refine ⟨_, _, (sentinel_unmade found hs).trans (if_neg room), h.placement_ne_zero _ none, ?_, ?_,
      rfl, rfl, rfl⟩
    · change ((h.contexts.modify c _).find? c).bind _ = _
      rw [Store.find_modify_self, found]
      rfl
    · refine (h.revises_placed none none).modifyContext c _ (fun _ => rfl)
        (fun _ _ => rfl) ?_ ?_ (fun _ _ => id)
      · intro ctx' a found' ha
        cases found.symm.trans found'
        exact absurd (hs.symm.trans ha) (by simp)
      · rintro ctx' a ha
        cases ha
        exact .inr (h.placement_ne_zero _ none)

end Op
end VectorHeap
