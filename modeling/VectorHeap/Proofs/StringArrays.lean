import Mathlib.Algebra.GroupWithZero.Nat
import VectorHeap.Native.StringArray
import VectorHeap.Proofs.Native.Slots
import VectorHeap.Proofs.Text.Utf8

/-! Batches of strings in one block. The pointers come first and the strings follow one another, so the
last one ends where the contents do. Pointers may be set elsewhere among the strings: whatever they
point at ends before the block does, because the last byte of the strings is a zero. -/
namespace VectorHeap.StringArray

variable {address : Nat} {strings : List String} {a : StringArray}

/-! ### Offsets -/

def stride (s : String) : Nat := (Utf8.encode s).length + 1

def offset (strings : List String) (k : Nat) : Nat :=
  8 * strings.length + ((strings.take k).map stride).sum

def extent (strings : List String) : Nat := 8 * strings.length + (strings.map stride).sum

theorem length_terminated (s : String) : (terminated s).length = stride s := by
  rw [terminated, List.length_append]
  rfl

theorem length_area (strings : List String) :
    (strings.flatMap terminated).length = (strings.map stride).sum := by
  rw [List.length_flatMap]
  exact congrArg List.sum (List.map_congr_left (fun s _ => length_terminated s))

theorem offset_zero (strings : List String) : offset strings 0 = 8 * strings.length := by
  simp [offset]

theorem offset_succ {k : Nat} {s : String} (found : strings[k]? = some s) :
    offset strings (k + 1) = offset strings k + stride s := by
  rw [offset, offset, List.take_add_one, found, Option.toList_some, List.map_append, List.sum_append]
  simp [Nat.add_assoc]

theorem offset_end (strings : List String) : offset strings strings.length = extent strings := by
  rw [offset, List.take_length, extent]

theorem offset_mono (strings : List String) {i j : Nat} (le : i ≤ j) :
    offset strings i ≤ offset strings j := by
  have whole := (List.take_append_drop i (strings.take j)).symm
  rw [List.take_take, Nat.min_eq_left le] at whole
  rw [offset, offset, whole, List.map_append, List.sum_append]
  omega

theorem offset_le_extent (strings : List String) {k : Nat} (below : k ≤ strings.length) :
    offset strings k ≤ extent strings := offset_end strings ▸ offset_mono strings below

theorem getElem?_offsets (strings : List String) (start k : Nat) :
    (offsets strings start)[k]? =
      if k < strings.length then some (start + ((strings.take k).map stride).sum) else none := by
  induction strings generalizing start k with
  | nil => simp [offsets]
  | cons s rest ih =>
    cases k with
    | zero => simp [offsets]
    | succ k =>
      rw [offsets, List.getElem?_cons_succ, ih, length_terminated]
      simp only [List.length_cons, Nat.add_lt_add_iff_right, List.take_succ_cons, List.map_cons,
        List.sum_cons, Nat.add_assoc]

theorem length_offsets (strings : List String) (start : Nat) :
    (offsets strings start).length = strings.length := by
  induction strings generalizing start with
  | nil => rfl
  | cons s rest ih => rw [offsets, List.length_cons, List.length_cons, ih]

/-! ### The block -/

theorem length_pointers (address : Nat) (strings : List String) :
    (pointers address strings).length = 8 * strings.length := by
  rw [pointers, Bytes.length_flatMap _ (fun _ _ => Bytes.length_ofNat 8 _), length_offsets, Nat.mul_comm]

def contents (address : Nat) (strings : List String) : Bytes :=
  pointers address strings ++ strings.flatMap terminated

theorem length_contents (address : Nat) (strings : List String) :
    (contents address strings).length = extent strings := by
  rw [contents, List.length_append, length_pointers, length_area, extent]

def size (strings : List String) : Nat := max (extent strings) leastSize

def laid (address : Nat) (strings : List String) : StringArray :=
  ⟨address, strings.length,
    contents address strings ++ Bytes.zeros (size strings - extent strings)⟩

theorem build_run (address : Nat) (strings : List String) (grants : Nat → Bool) :
    build address strings grants =
      if Block.Refused grants (size strings) then .error (.allocationFailure (size strings))
      else .ok (laid address strings) := by
  have length := length_contents address strings
  have block : (Bytes.zeros (size strings)).overwrite 0 (contents address strings) =
      contents address strings ++ Bytes.zeros (size strings - extent strings) := by
    rw [Bytes.overwrite, List.take_zero, List.nil_append, length, Nat.zero_add, Bytes.zeros,
      List.drop_replicate, Bytes.zeros]
  have run : build address strings grants = (do
      let block ← Block.allocate (max (contents address strings).length leastSize) grants
      return ⟨address, strings.length, block.overwrite 0 (contents address strings)⟩) := rfl
  rw [run, length, laid, ← block]
  change (do
    let block ← Block.allocate (size strings) grants
    return (⟨address, strings.length, block.overwrite 0 (contents address strings)⟩ : StringArray)) = _
  rw [Block.allocate_eq]
  split <;> rfl

/-! ### Pointers -/

theorem pointer_eq_slot (a : StringArray) (k : Nat) : a.pointer k = Bytes.toNat (a.block.slot 8 k) := by
  rw [pointer, Bytes.slot, Nat.mul_comm]

theorem toNat_word {n : Nat} (small : n < 2 ^ 64) : Bytes.toNat (Bytes.ofNat 8 n) = n := by
  rw [Bytes.toNat_ofNat]
  exact Nat.mod_eq_of_lt small

def rewrite (a : StringArray) (ws : List (Nat × Nat)) : StringArray :=
  ws.foldl (fun a w => a.setPointer w.1 w.2) a

/-- Where they point then. -/
def retarget (target : Nat → Nat) (ws : List (Nat × Nat)) : Nat → Nat :=
  ws.foldl (fun target w k => if k = w.1 then w.2 else target k) target

structure Keeps (address : Nat) (strings : List String) (a : StringArray) : Prop where
  address : a.address = address
  count : a.count = strings.length
  length : a.block.length = size strings
  area : a.block.drop (8 * strings.length) =
    strings.flatMap terminated ++ Bytes.zeros (size strings - extent strings)

theorem keeps_laid (address : Nat) (strings : List String) :
    Keeps address strings (laid address strings) where
  address := rfl
  count := rfl
  length := by
    rw [laid, List.length_append, length_contents, Bytes.zeros, List.length_replicate]
    exact Nat.add_sub_of_le (Nat.le_max_left ..)
  area := by
    rw [laid, contents, List.append_assoc, ← length_pointers address strings, List.drop_left]

theorem extent_le_size (strings : List String) : extent strings ≤ size strings := Nat.le_max_left ..

theorem header_le_extent (strings : List String) : 8 * strings.length ≤ extent strings :=
  Nat.le_add_right ..

section
variable (K : Keeps address strings a)
include K

theorem Keeps.fits {slot : Nat} (inside : slot < strings.length) : 8 * slot + 8 ≤ a.block.length := by
  have header := header_le_extent strings
  have whole := extent_le_size strings
  rw [K.length]
  omega

theorem Keeps.setPointer {slot : Nat} (inside : slot < strings.length) (p : Nat) :
    Keeps address strings (a.setPointer slot p) where
  address := K.address
  count := K.count
  length := by
    refine (Bytes.length_overwrite _ _ _ ?_).trans K.length
    rw [Bytes.length_ofNat]
    exact K.fits inside
  area := by
    refine Eq.trans (List.ext_getElem? (fun i => ?_)) K.area
    have fits := K.fits inside
    rw [List.getElem?_drop, List.getElem?_drop, StringArray.setPointer,
      Bytes.getElem?_overwrite _ _ _ _ (by omega), Bytes.length_ofNat, if_neg (by omega),
      if_neg (by omega)]

theorem Keeps.pointer_setPointer {slot p : Nat} (inside : slot < strings.length) (small : p < 2 ^ 64)
    (k : Nat) : (a.setPointer slot p).pointer k = if k = slot then p else a.pointer k := by
  have fits := K.fits inside
  have word : (Bytes.ofNat 8 p).length = 1 * 8 := Bytes.length_ofNat 8 p
  rw [pointer_eq_slot, pointer_eq_slot, StringArray.setPointer, Nat.mul_comm 8 slot]
  by_cases same : k = slot
  · subst same
    have written := Bytes.slot_overwrite_inside a.block 8 k 1 _ word (by omega) Nat.one_pos
    rw [Nat.add_zero, Bytes.slot_zero, List.take_of_length_le (Nat.le_of_eq word)] at written
    rw [if_pos rfl, written, toNat_word small]
  · rw [if_neg same, Bytes.slot_overwrite_outside _ 8 slot 1 _ word (by omega) (by omega)]

theorem Keeps.rewrite {ws : List (Nat × Nat)}
    (inside : ∀ w ∈ ws, w.1 < strings.length ∧ w.2 < 2 ^ 64) :
    Keeps address strings (a.rewrite ws) ∧
      ∀ k, (a.rewrite ws).pointer k = retarget a.pointer ws k := by
  induction ws generalizing a with
  | nil => exact ⟨K, fun _ => rfl⟩
  | cons w ws ih =>
    obtain ⟨first, rest⟩ := List.forall_mem_cons.mp inside
    obtain ⟨K', pointers⟩ := ih (K.setPointer first.1 w.2) rest
    refine ⟨K', fun k => (pointers k).trans ?_⟩
    have moved : (a.setPointer w.1 w.2).pointer = fun k => if k = w.1 then w.2 else a.pointer k :=
      funext (K.pointer_setPointer first.1 first.2)
    rw [moved]
    rfl

end

/-! ### Reading -/

theorem untilZero_append {bs : Bytes} (zero : (0 : UInt8) ∈ bs) (rest : Bytes) :
    ∃ l < bs.length, bs[l]? = some 0 ∧ (0 : UInt8) ∉ bs.take l ∧
      Bytes.untilZero (bs ++ rest) = bs.take l := by
  induction bs with
  | nil => exact absurd zero List.not_mem_nil
  | cons b bs ih =>
    by_cases here : b = 0
    · subst here
      exact ⟨0, Nat.succ_pos _, rfl, List.not_mem_nil, rfl⟩
    · obtain ⟨l, below, stop, before, read⟩ := ih ((List.mem_cons.mp zero).resolve_left (Ne.symm here))
      refine ⟨l + 1, Nat.succ_lt_succ below, stop, ?_, ?_⟩
      · rw [List.take_succ_cons]
        exact fun mem => (List.mem_cons.mp mem).elim (fun same => here same.symm) before
      · have nonzero : (b != 0) = true := bne_iff_ne.mpr here
        unfold Bytes.untilZero at read ⊢
        rw [List.cons_append, List.takeWhile_cons, if_pos nonzero, read, List.take_succ_cons]

/-- What a block holds from an offset up to the next zero byte, which is in the block too. -/
def TextAt (block : Bytes) (offset : Nat) (text : String) : Prop :=
  ∃ l, offset + l < block.length ∧ block[offset + l]? = some 0 ∧
    (0 : UInt8) ∉ block.slice offset l ∧ text = Utf8.decode (block.slice offset l)

theorem zero_mem_drop (strings : List String) {d : Nat} (inside : d < (strings.flatMap terminated).length) :
    (0 : UInt8) ∈ (strings.flatMap terminated).drop d := by
  induction strings generalizing d with
  | nil => exact absurd inside (by simp)
  | cons s rest ih =>
    rw [List.flatMap_cons] at inside ⊢
    by_cases here : d < (terminated s).length
    · have last : (0 : UInt8) ∈ (terminated s).drop d := by
        rw [terminated, List.length_append] at here
        rw [terminated, List.drop_append_of_le_length (Nat.le_of_lt_succ here)]
        exact List.mem_append_right _ (List.mem_singleton_self 0)
      rw [List.drop_append_of_le_length (Nat.le_of_lt here)]
      exact List.mem_append_left _ last
    · rw [List.length_append] at inside
      rw [List.drop_append, List.drop_of_length_le (by omega), List.nil_append]
      exact ih (by omega)

section
variable (K : Keeps address strings a)
include K

theorem Keeps.length_strings : a.strings.length = strings.length := by
  rw [StringArray.strings, List.length_map, List.length_range, K.count]

theorem Keeps.getElem?_strings {k : Nat} (inside : k < strings.length) :
    a.strings[k]? = some (a.readAt (a.pointer k)) := by
  rw [StringArray.strings, List.getElem?_map, List.getElem?_range (by rw [K.count]; exact inside)]
  rfl

theorem Keeps.drop_block {d : Nat} (inside : d ≤ (strings.flatMap terminated).length) :
    ∃ rest, a.block.drop (8 * strings.length + d) = (strings.flatMap terminated).drop d ++ rest := by
  refine ⟨Bytes.zeros (size strings - extent strings), ?_⟩
  rw [← List.drop_drop, K.area, List.drop_append_of_le_length inside]

/-- A pointer among the strings reads a text that ends in the block. -/
theorem Keeps.textAt {p : Nat} (low : address + 8 * strings.length ≤ p)
    (high : p < address + extent strings) : TextAt a.block (p - address) (a.readAt p) := by
  obtain ⟨d, rfl⟩ := Nat.exists_eq_add_of_le low
  have inside : d < (strings.flatMap terminated).length := by
    rw [length_area]
    unfold extent at high
    omega
  have place : address + 8 * strings.length + d - address = 8 * strings.length + d := by omega
  obtain ⟨rest, here⟩ := K.drop_block (Nat.le_of_lt inside)
  obtain ⟨l, below, stop, before, read⟩ := untilZero_append (zero_mem_drop strings inside) rest
  have slice : a.block.slice (8 * strings.length + d) l = ((strings.flatMap terminated).drop d).take l := by
    rw [Bytes.slice, here, List.take_append_of_le_length (Nat.le_of_lt below)]
  have byte : a.block[8 * strings.length + d + l]? = some 0 := by
    rw [← List.getElem?_drop, here, List.getElem?_append_left below, stop]
  rw [place, readAt, K.address, place, here, read]
  exact ⟨l, (List.getElem?_eq_some_iff.mp byte).1, byte, slice ▸ before, by rw [slice]⟩

theorem Keeps.drop_offset {k : Nat} {s : String} (found : strings[k]? = some s) :
    ∃ rest, a.block.drop (offset strings k) = Utf8.encode s ++ 0 :: rest := by
  obtain ⟨below, rfl⟩ := List.getElem?_eq_some_iff.mp found
  have split : strings.flatMap terminated =
      (strings.take k).flatMap terminated ++ (terminated strings[k] ++
        (strings.drop (k + 1)).flatMap terminated) := by
    rw [← List.flatMap_cons, ← List.drop_eq_getElem_cons below, ← List.flatMap_append,
      List.take_append_drop]
  have before := length_area (strings.take k)
  have inside : ((strings.take k).map stride).sum ≤ (strings.flatMap terminated).length := by
    rw [split, List.length_append, before]
    exact Nat.le_add_right ..
  obtain ⟨rest, here⟩ := K.drop_block inside
  rw [split, ← before, List.drop_left, before, terminated] at here
  refine ⟨(strings.drop (k + 1)).flatMap terminated ++ rest, ?_⟩
  rw [offset, here]
  simp

theorem Keeps.readAt_offset {k : Nat} {s : String} (found : strings[k]? = some s) :
    a.readAt (address + offset strings k) = Utf8.cut s := by
  obtain ⟨rest, here⟩ := K.drop_offset found
  rw [readAt, K.address, Nat.add_sub_cancel_left, here, Utf8.decode_untilZero]

end

/-! ### Layout -/

/-- A block in which strings are laid out one after the other behind their pointers. -/
structure LaidOut (address : Nat) (strings : List String) (a : StringArray) : Prop where
  base : a.address = address
  count : a.count = strings.length
  length : a.block.length =
    max 8 (8 * strings.length + (strings.map (fun s => (Utf8.encode s).length + 1)).sum)
  pointer : ∀ k < strings.length, a.pointer k = address + (8 * strings.length +
    ((strings.take k).map (fun s => (Utf8.encode s).length + 1)).sum)
  string : ∀ k s, strings[k]? = some s →
    a.block.slice (a.pointer k - address) ((Utf8.encode s).length + 1) = Utf8.encode s ++ [0]
  apart : ∀ i j s, i < j → j < strings.length → strings[i]? = some s →
    a.pointer i + ((Utf8.encode s).length + 1) ≤ a.pointer j
  last : ∀ s, strings.getLast? = some s →
    a.pointer (strings.length - 1) + ((Utf8.encode s).length + 1) = address + a.block.length

theorem offset_among {k : Nat} (inside : k < strings.length) :
    8 * strings.length ≤ offset strings k ∧ offset strings k < extent strings := by
  have first := offset_mono strings (Nat.zero_le k)
  have step := offset_succ (List.getElem?_eq_getElem inside)
  have last := offset_le_extent strings (show k + 1 ≤ strings.length from inside)
  rw [offset_zero] at first
  unfold stride at step
  omega

theorem pointer_laid (room : address + size strings ≤ 2 ^ 64) {k : Nat}
    (inside : k < strings.length) : (laid address strings).pointer k = address + offset strings k := by
  have small : address + offset strings k < 2 ^ 64 := by
    have among := offset_among inside
    have whole := extent_le_size strings
    omega
  have header : (k + 1) * 8 ≤ (pointers address strings).length := by
    rw [length_pointers]
    omega
  have front : (laid address strings).block.slot 8 k = Bytes.slot (pointers address strings) 8 k := by
    rw [laid, contents, List.append_assoc, ← Bytes.slot_take _ _ 8 header, List.take_left]
  have there : (offsets strings (8 * strings.length))[k]? = some (offset strings k) := by
    rw [getElem?_offsets, if_pos inside, offset]
  rw [pointer_eq_slot, front, pointers,
    Bytes.slot_flatMap _ (fun o _ => Bytes.length_ofNat 8 (address + o)) there, toNat_word small]

theorem laidOut_laid (room : address + size strings ≤ 2 ^ 64) :
    LaidOut address strings (laid address strings) := by
  have K := keeps_laid address strings
  have below : ∀ {k s}, strings[k]? = some s → k < strings.length :=
    fun found => (List.getElem?_eq_some_iff.mp found).1
  refine ⟨rfl, rfl, K.length.trans (Nat.max_comm ..), fun _ => pointer_laid room, fun k s found => ?_,
    fun i j s lt inside found => ?_, fun s last => ?_⟩
  · obtain ⟨rest, here⟩ := K.drop_offset found
    rw [pointer_laid room (below found), Nat.add_sub_cancel_left, Bytes.slice, here, List.append_cons,
      List.take_append_of_le_length (by simp), List.take_of_length_le (by simp)]
  · have step := offset_succ found
    have mono := offset_mono strings (show i + 1 ≤ j from lt)
    rw [pointer_laid room (below found), pointer_laid room inside]
    unfold stride at step
    omega
  · rw [List.getLast?_eq_getElem?] at last
    have inside := below last
    have step := offset_succ last
    rw [show strings.length - 1 + 1 = strings.length by omega, offset_end] at step
    rw [pointer_laid room inside, K.length]
    unfold stride at step
    unfold size leastSize
    unfold extent at step ⊢
    omega

theorem Keeps.strings_eq (K : Keeps address strings a)
    (pointers : ∀ k < strings.length, a.pointer k = address + offset strings k) :
    a.strings = strings.map Utf8.cut := by
  refine List.ext_getElem? (fun k => ?_)
  rw [List.getElem?_map]
  cases found : strings[k]? with
  | some s =>
    have inside := (List.getElem?_eq_some_iff.mp found).1
    rw [K.getElem?_strings inside, pointers k inside, K.readAt_offset found]
    rfl
  | none =>
    have past := List.getElem?_eq_none_iff.mp found
    rw [List.getElem?_eq_none (by rw [K.length_strings]; exact past)]
    rfl

/-- A pointer that was set points where it was set to, and the others where they did. -/
theorem retarget_cases (target : Nat → Nat) (ws : List (Nat × Nat)) (k : Nat) :
    retarget target ws k = target k ∨ ∃ w ∈ ws, retarget target ws k = w.2 := by
  induction ws generalizing target with
  | nil => exact .inl rfl
  | cons w ws ih =>
    rcases ih (fun k => if k = w.1 then w.2 else target k) with same | ⟨w', mem, same⟩
    · change retarget target (w :: ws) k = if k = w.1 then w.2 else target k at same
      split at same
      · exact .inr ⟨w, List.mem_cons_self .., same⟩
      · exact .inl same
    · exact .inr ⟨w', List.mem_cons_of_mem _ mem, same⟩

/-- For all strings and every address at which their block fits into memory. A block that the allocator
refuses is an error. Else the strings are laid out behind their pointers, one after the other up to
the end of the block, and read back up to their first zero character. When any pointers are set to any
places among the strings, each reads the text from where it points up to the next zero byte, which is
in the block, and the strings stay where they were. -/
theorem strings_read_back (address : Nat) (strings : List String) (grants : Nat → Bool)
    (room : address + size strings ≤ 2 ^ 64) :
    (Block.Refused grants (size strings) →
      build address strings grants = .error (.allocationFailure (size strings))) ∧
    (¬ Block.Refused grants (size strings) → ∃ a, build address strings grants = .ok a ∧
      LaidOut address strings a ∧ a.strings = strings.map Utf8.cut ∧
      ((∀ s ∈ strings, '\x00' ∉ s.toList) → a.strings = strings) ∧
      ∀ ws, (∀ w ∈ ws, w.1 < strings.length ∧
          address + 8 * strings.length ≤ w.2 ∧ w.2 < address + extent strings) →
        (a.rewrite ws).block.drop (8 * strings.length) = a.block.drop (8 * strings.length) ∧
        (a.rewrite ws).strings.length = strings.length ∧
        ∀ k < strings.length, ∃ text, (a.rewrite ws).strings[k]? = some text ∧
          address ≤ retarget a.pointer ws k ∧
          TextAt (a.rewrite ws).block (retarget a.pointer ws k - address) text) := by
  have K := keeps_laid address strings
  have whole := K.strings_eq (fun _ => pointer_laid room)
  rw [build_run]
  refine ⟨fun refused => by rw [if_pos refused], fun granted => ⟨_, by rw [if_neg granted],
    laidOut_laid room, whole, fun none => whole.trans ?_, fun ws among => ?_⟩⟩
  · exact (List.map_congr_left (fun s hs => Utf8.cut_of_not_mem (none s hs))).trans (List.map_id _)
  · have fits := extent_le_size strings
    have bounded : ∀ w ∈ ws, w.1 < strings.length ∧ w.2 < 2 ^ 64 := fun w hw => by
      have above := (among w hw).2.2
      exact ⟨(among w hw).1, by omega⟩
    obtain ⟨K', moved⟩ := K.rewrite bounded
    refine ⟨K'.area.trans K.area.symm, K'.length_strings, fun k inside => ?_⟩
    -- The pointer is among the strings, be it as it was written or as it was set.
    have place : address + 8 * strings.length ≤ retarget (laid address strings).pointer ws k ∧
        retarget (laid address strings).pointer ws k < address + extent strings := by
      rcases retarget_cases (laid address strings).pointer ws k with same | ⟨w, mem, same⟩
      · have here := offset_among inside
        rw [same, pointer_laid room inside]
        omega
      · rw [same]
        exact (among w mem).2
    refine ⟨_, K'.getElem?_strings inside, Nat.le_trans (Nat.le_add_right ..) place.1, ?_⟩
    rw [moved]
    exact K'.textAt place.1 place.2

/-- The pointer to the first of two strings is set into the middle of a character of the second. -/
theorem strings_read_back_inside : ∃ a, build 4096 ["a", "é"] = .ok a ∧ a.strings = ["a", "é"] ∧
    (a.rewrite [(0, 4115)]).strings = ["\uFFFD", "é"] ∧
    TextAt (a.rewrite [(0, 4115)]).block 19 "\uFFFD" := by
  obtain ⟨a, built, _, _, whole, rewritten⟩ :=
    (strings_read_back 4096 ["a", "é"] Block.ample (by decide +kernel)).2 (by decide +kernel)
  obtain ⟨_, _, texts⟩ := rewritten [(0, 4115)] (by decide +kernel)
  obtain ⟨text, read, _, there⟩ := texts 0 (by decide)
  rw [build_run, if_neg (by decide +kernel)] at built
  cases built
  have moved : ((laid 4096 ["a", "é"]).rewrite [(0, 4115)]).strings = ["\uFFFD", "é"] := by decide +kernel
  rw [moved] at read
  cases read
  exact ⟨_, rfl, whole (by decide +kernel), moved, there⟩

end VectorHeap.StringArray
