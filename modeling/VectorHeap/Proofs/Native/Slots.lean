import VectorHeap.Heap.Contents
import VectorHeap.Native.Codec

/-! Slots of native memory: what reading a slot gives after memory was written, resized or made of
encoded values one after another. -/
namespace VectorHeap

namespace Bytes

def slot (bs : Bytes) (width i : Nat) : Bytes := bs.slice (i * width) width

theorem getElem?_slot (bs : Bytes) (width i k : Nat) :
    (bs.slot width i)[k]? = if k < width then bs[i * width + k]? else none := by
  rw [slot, slice, List.getElem?_take]
  split
  · rw [List.getElem?_drop]
  · rfl

theorem getElem?_overwrite (bs : Bytes) (offset : Nat) (data : Bytes) (k : Nat)
    (fits : offset ≤ bs.length) :
    (bs.overwrite offset data)[k]? =
      if k < offset then bs[k]? else if k < offset + data.length then data[k - offset]? else bs[k]? := by
  have front : (bs.take offset).length = offset := by rw [List.length_take]; omega
  rw [overwrite, List.append_assoc]
  by_cases before : k < offset
  · rw [List.getElem?_append_left (by omega), List.getElem?_take, if_pos before, if_pos before]
  · rw [List.getElem?_append_right (by omega), front, if_neg before]
    by_cases inside : k < offset + data.length
    · rw [List.getElem?_append_left (by omega), if_pos inside]
    · rw [List.getElem?_append_right (by omega), List.getElem?_drop, if_neg inside]
      congr 1
      omega

theorem getElem?_resized (old : Bytes) (size k : Nat) (kept : k < old.length) (fits : k < size) :
    (Block.resized old size)[k]? = old[k]? := by
  have front : k < (old.take size).length := by rw [List.length_take]; omega
  rw [Block.resized, List.getElem?_append_left front, List.getElem?_take, if_pos fits]

theorem slot_end_le {i j : Nat} (width : Nat) (lt : i < j) : i * width + width ≤ j * width := by
  have := Nat.mul_le_mul_right width (Nat.succ_le_of_lt lt)
  rwa [Nat.succ_mul] at this

theorem overwrite_nil (bs : Bytes) (offset : Nat) : bs.overwrite offset [] = bs := by
  simp [overwrite]

theorem slot_overwrite_inside (bs : Bytes) (width i count : Nat) (data : Bytes) {j : Nat}
    (size : data.length = count * width) (fits : i * width ≤ bs.length) (inside : j < count) :
    (bs.overwrite (i * width) data).slot width (i + j) = data.slot width j := by
  refine List.ext_getElem? (fun k => ?_)
  rw [getElem?_slot, getElem?_slot]
  split
  · rename_i small
    have last := slot_end_le width inside
    have place : (i + j) * width = i * width + j * width := Nat.add_mul i j width
    rw [getElem?_overwrite bs _ data _ fits, if_neg (by omega), if_pos (by omega)]
    congr 1
    omega
  · rfl

theorem slot_overwrite_outside (bs : Bytes) (width i count : Nat) (data : Bytes) {j : Nat}
    (size : data.length = count * width) (fits : i * width ≤ bs.length)
    (outside : j < i ∨ i + count ≤ j) :
    (bs.overwrite (i * width) data).slot width j = bs.slot width j := by
  refine List.ext_getElem? (fun k => ?_)
  rw [getElem?_slot, getElem?_slot]
  split
  · rename_i small
    rw [getElem?_overwrite bs _ data _ fits]
    rcases outside with before | behind
    · have last := slot_end_le width before
      rw [if_pos (by omega)]
    · have first := Nat.mul_le_mul_right width behind
      rw [Nat.add_mul] at first
      rw [if_neg (by omega), if_neg (by omega)]
  · rfl

theorem slot_resized (old : Bytes) (size width : Nat) {i : Nat}
    (kept : (i + 1) * width ≤ old.length) (fits : (i + 1) * width ≤ size) :
    (Block.resized old size).slot width i = old.slot width i := by
  refine List.ext_getElem? (fun k => ?_)
  rw [getElem?_slot, getElem?_slot]
  split
  · rename_i small
    rw [Nat.succ_mul] at kept fits
    rw [getElem?_resized old size _ (by omega) (by omega)]
  · rfl

theorem slot_take (bs : Bytes) (stop width : Nat) {i : Nat} (fits : (i + 1) * width ≤ stop) :
    Bytes.slot (bs.take stop) width i = bs.slot width i := by
  refine List.ext_getElem? (fun k => ?_)
  rw [getElem?_slot, getElem?_slot]
  split
  · rename_i small
    rw [Nat.succ_mul] at fits
    rw [List.getElem?_take, if_pos (by omega)]
  · rfl

theorem slot_drop (bs : Bytes) (width i : Nat) :
    Bytes.slot (bs.drop width) width i = bs.slot width (i + 1) := by
  rw [slot, slot, slice, slice, List.drop_drop, Nat.succ_mul, Nat.add_comm]

theorem slot_zero (bs : Bytes) (width : Nat) : bs.slot width 0 = bs.take width := by
  rw [slot, slice, Nat.zero_mul, List.drop_zero]

/-! ### Values one after another -/

variable {α : Type} {encode : α → Bytes} {width : Nat}

theorem length_flatMap (xs : List α) (fixed : ∀ x ∈ xs, (encode x).length = width) :
    (xs.flatMap encode).length = xs.length * width := by
  induction xs with
  | nil => simp
  | cons x xs ih =>
    have rest := ih (fun y hy => fixed y (List.mem_cons_of_mem x hy))
    rw [List.flatMap_cons, List.length_append, rest, fixed x (List.mem_cons_self ..),
      List.length_cons, Nat.succ_mul, Nat.add_comm]

theorem slot_flatMap (xs : List α) (fixed : ∀ x ∈ xs, (encode x).length = width) {i : Nat} {x : α}
    (found : xs[i]? = some x) : Bytes.slot (xs.flatMap encode) width i = encode x := by
  induction xs generalizing i with
  | nil => simp at found
  | cons y ys ih =>
    have head := fixed y (List.mem_cons_self ..)
    rw [List.flatMap_cons]
    cases i with
    | zero =>
      simp only [List.getElem?_cons_zero, Option.some.injEq] at found
      rw [slot_zero, List.take_append_of_le_length (by omega), List.take_of_length_le (by omega), found]
    | succ i =>
      rw [← slot_drop, List.drop_append_of_le_length (by omega), List.drop_of_length_le (by omega),
        List.nil_append]
      exact ih (fun z hz => fixed z (List.mem_cons_of_mem y hz)) (by simpa using found)

end Bytes

/-! ### Handles in slots -/

theorem length_handleBytes (handle : Handle) : (Op.handleBytes handle).length = 8 :=
  Bytes.length_ofNat 8 _

theorem handle_of_bytes (handle : Handle) :
    (⟨UInt64.ofNat (Bytes.toNat (Op.handleBytes handle))⟩ : Handle) = handle := by
  have small : handle.raw.toNat < Nat.pow 256 8 := handle.raw.toNat_lt
  rw [Op.handleBytes, Bytes.toNat_ofNat, Nat.mod_eq_of_lt small]
  simp

/-! ### Inline values in slots -/

namespace InlineType

variable (t : InlineType)

theorem width_pos : 0 < t.width := t.elemType.nativeWidth_pos

theorem decodeInt_take (bs : Bytes) {n : Nat} (four : 4 ≤ n) :
    decodeInt (bs.take n) = decodeInt bs := by
  rw [decodeInt, decodeInt, List.take_take, Nat.min_eq_left four]

theorem decodeDouble_take (bs : Bytes) {n : Nat} (eight : 8 ≤ n) :
    decodeDouble (bs.take n) = decodeDouble bs := by
  rw [decodeDouble, decodeDouble, List.take_take, Nat.min_eq_left eight]

theorem decode_take (bs : Bytes) : t.decode (bs.take t.width) = t.decode bs := by
  cases t with
  | int => exact decodeInt_take bs (Nat.le_refl 4)
  | double => exact decodeDouble_take bs (Nat.le_refl 8)
  | logical => exact congrArg Logical.ofWord (decodeInt_take bs (Nat.le_refl 4))
  | complex =>
    have re : decodeDouble (bs.take 16) = decodeDouble bs := decodeDouble_take bs (by decide)
    have im : decodeDouble ((bs.take 16).drop 8) = decodeDouble (bs.drop 8) := by
      rw [List.drop_take]
      exact decodeDouble_take (bs.drop 8) (Nat.le_refl 8)
    change Complex.mk (decodeDouble (bs.take 16)) (decodeDouble ((bs.take 16).drop 8)) =
      Complex.mk (decodeDouble bs) (decodeDouble (bs.drop 8))
    rw [re, im]
  | raw => cases bs <;> rfl

theorem decode_slot_zero (bs : Bytes) : t.decode (bs.slot t.width 0) = t.decode bs := by
  rw [Bytes.slot_zero, decode_take]

theorem getElem?_decodeAll (n : Nat) (bs : Bytes) (i : Nat) :
    (t.decodeAll n bs)[i]? = if i < n then some (t.decode (bs.slot t.width i)) else none := by
  induction n generalizing bs i with
  | zero => simp [decodeAll]
  | succ n ih =>
    cases i with
    | zero => simp [decodeAll, decode_slot_zero]
    | succ i => simp only [decodeAll, List.getElem?_cons_succ, ih, Bytes.slot_drop,
        Nat.add_lt_add_iff_right]

theorem length_decodeAll (n : Nat) (bs : Bytes) : (t.decodeAll n bs).length = n := by
  induction n generalizing bs with
  | zero => rfl
  | succ n ih => rw [decodeAll, List.length_cons, ih]

theorem length_encodeAll (vs : List t.Value) : (t.encodeAll vs).length = vs.length * t.width :=
  Bytes.length_flatMap vs (fun v _ => t.length_encode v)

theorem decode_encode (v : t.Value) : t.decode (t.encode v) = v := by
  simpa using t.decode_encode_append v []

theorem decode_slot_encodeAll (vs : List t.Value) {i : Nat} {v : t.Value} (found : vs[i]? = some v) :
    t.decode (Bytes.slot (t.encodeAll vs) t.width i) = v := by
  rw [encodeAll, Bytes.slot_flatMap vs (fun v _ => t.length_encode v) found, decode_encode]

theorem getElem?_decodeAll_overwrite (n : Nat) (bs : Bytes) (i : Nat) (vs : List t.Value)
    (fits : i * t.width ≤ bs.length) (k : Nat) :
    (t.decodeAll n (bs.overwrite (i * t.width) (t.encodeAll vs)))[k]? =
      if k < n then if i ≤ k ∧ k < i + vs.length then vs[k - i]? else (t.decodeAll n bs)[k]?
      else none := by
  rw [getElem?_decodeAll, getElem?_decodeAll]
  split
  · by_cases inside : i ≤ k ∧ k < i + vs.length
    · obtain ⟨j, rfl⟩ := Nat.exists_eq_add_of_le inside.1
      have bound : j < vs.length := by omega
      rw [if_pos inside, Nat.add_sub_cancel_left, List.getElem?_eq_getElem bound,
        Bytes.slot_overwrite_inside bs t.width i _ _ (t.length_encodeAll vs) fits bound,
        t.decode_slot_encodeAll vs (List.getElem?_eq_getElem bound)]
    · rw [if_neg inside, Bytes.slot_overwrite_outside bs t.width i _ _ (t.length_encodeAll vs) fits
        (by omega)]
  · rfl

theorem decodeAll_set {n : Nat} {bs : Bytes} {i : Nat} (x : t.Value) (lt : i < n)
    (fits : i * t.width ≤ bs.length) :
    t.decodeAll n (bs.overwrite (i * t.width) (t.encode x)) = (t.decodeAll n bs).set i x := by
  have one : t.encodeAll [x] = t.encode x := by simp [encodeAll]
  refine List.ext_getElem? (fun k => ?_)
  rw [← one, getElem?_decodeAll_overwrite t n bs i [x] fits, List.getElem?_set, length_decodeAll]
  by_cases same : i = k
  · subst same
    simp [lt]
  · have outside : ¬ (i ≤ k ∧ k < i + [x].length) := by simp; omega
    rw [if_neg outside, if_neg same, getElem?_decodeAll]
    split <;> rfl

/-- Contents of another size, with values written behind the old slots. -/
theorem decodeAll_resized {bs : Bytes} {old n : Nat} {vs : List t.Value}
    (room : old * t.width ≤ bs.length) (count : vs.length = n - old) :
    t.decodeAll n ((Block.resized (bs.take (old * t.width)) (t.width * n)).overwrite (old * t.width)
      (t.encodeAll vs)) = (t.decodeAll old bs).take n ++ vs := by
  have kept : ∀ k, k < old → k < n →
      Bytes.slot (Block.resized (bs.take (old * t.width)) (t.width * n)) t.width k =
        bs.slot t.width k := by
    intro k before inside
    have stop : (k + 1) * t.width ≤ old * t.width := Nat.mul_le_mul_right _ before
    have fits : (k + 1) * t.width ≤ t.width * n := by
      rw [Nat.mul_comm]
      exact Nat.mul_le_mul_left _ inside
    rw [Bytes.slot_resized _ _ _ (by rw [List.length_take]; omega) fits, Bytes.slot_take _ _ _ stop]
  refine List.ext_getElem? (fun k => ?_)
  rw [List.getElem?_append, List.length_take, length_decodeAll, List.getElem?_take]
  by_cases grown : old ≤ n
  · have length : (Block.resized (bs.take (old * t.width)) (t.width * n)).length = t.width * n :=
      Block.length_resized _ _
    have fits : old * t.width ≤ t.width * n := by
      rw [Nat.mul_comm]
      exact Nat.mul_le_mul_left _ grown
    rw [getElem?_decodeAll_overwrite t n _ old vs (by rw [length]; exact fits), Nat.min_eq_right grown]
    by_cases before : k < old
    · rw [if_pos (by omega), if_neg (by omega), if_pos before, if_pos (by omega), getElem?_decodeAll,
        getElem?_decodeAll, if_pos (by omega), if_pos before, kept k before (by omega)]
    · by_cases inside : k < n
      · rw [if_pos inside, if_pos (by omega), if_neg before]
      · rw [if_neg inside, if_neg before, List.getElem?_eq_none (by omega)]
  · have none : vs = [] := List.length_eq_zero_iff.mp (by omega)
    subst none
    rw [show t.encodeAll ([] : List t.Value) = [] from rfl, Bytes.overwrite_nil, getElem?_decodeAll,
      Nat.min_eq_left (by omega), List.getElem?_nil, getElem?_decodeAll]
    by_cases inside : k < n
    · rw [if_pos inside, if_pos inside, if_pos inside, if_pos (by omega), kept k (by omega) inside]
    · rw [if_neg inside, if_neg inside]

end InlineType
end VectorHeap
