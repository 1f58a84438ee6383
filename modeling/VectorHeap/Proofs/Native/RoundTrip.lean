import Mathlib.Algebra.Group.Nat.Defs
import VectorHeap.Proofs.Native.Slots

/-! Inline values in a buffer. What is stored from an offset on fills its slots and nothing else and
reads back, and what was read is stored as the bytes that were there, up to the words of logicals. -/
namespace VectorHeap

namespace Bytes

def littleEndian (width n : Nat) : Bytes := (List.range width).map (fun k => UInt8.ofNat (n / 256 ^ k))

theorem ofNat_eq_littleEndian (width n : Nat) : ofNat width n = littleEndian width n := by
  induction width generalizing n with
  | zero => rfl
  | succ width ih =>
    have rest : littleEndian width (n / 256) =
        (List.range width).map ((fun k => UInt8.ofNat (n / 256 ^ k)) ∘ Nat.succ) :=
      List.map_congr_left (fun k _ => by
        simp only [Function.comp_apply, Nat.pow_succ', Nat.div_div_eq_div_mul])
    rw [ofNat, ih, rest, littleEndian, List.range_succ_eq_map, List.map_cons, List.map_map, Nat.pow_zero,
      Nat.div_one]

theorem toNat_lt (bs : Bytes) : toNat bs < 256 ^ bs.length := by
  induction bs with
  | nil => exact Nat.one_pos
  | cons b bs ih =>
    have low := b.toNat_lt
    rw [toNat, List.length_cons, Nat.pow_succ]
    omega

theorem slice_overwrite (bs data : Bytes) (offset i width : Nat) (fits : offset ≤ bs.length)
    (inside : i + width ≤ data.length) :
    (bs.overwrite offset data).slice (offset + i) width = data.slice i width := by
  refine List.ext_getElem? (fun k => ?_)
  rw [slice, slice, List.getElem?_take, List.getElem?_take, List.getElem?_drop, List.getElem?_drop]
  split
  · rw [getElem?_overwrite bs offset data _ fits, if_neg (by omega), if_pos (by omega)]
    congr 1
    omega
  · rfl

theorem drop_overwrite (bs data : Bytes) (offset : Nat) (fits : offset ≤ bs.length) :
    (bs.overwrite offset data).drop offset = data ++ bs.drop (offset + data.length) := by
  have front : (bs.take offset).length = offset := by rw [List.length_take]; omega
  rw [overwrite, List.append_assoc, List.drop_append_of_le_length (by omega),
    List.drop_of_length_le (by omega), List.nil_append]

theorem overwrite_slice (bs : Bytes) (offset width : Nat) (fits : offset + width ≤ bs.length) :
    bs.overwrite offset (bs.slice offset width) = bs := by
  have size : (bs.slice offset width).length = width := by
    rw [slice, List.length_take, List.length_drop]; omega
  rw [overwrite, size, slice, ← List.drop_drop, List.append_assoc, List.take_append_drop,
    List.take_append_drop]

theorem overwrite_append (bs first second : Bytes) (offset : Nat)
    (fits : offset + first.length ≤ bs.length) :
    (bs.overwrite offset first).overwrite (offset + first.length) second =
      bs.overwrite offset (first ++ second) := by
  have front : (bs.take offset ++ first).length = offset + first.length := by
    rw [List.length_append, List.length_take]; omega
  have behind : offset + first.length + (offset + first.length + second.length - (offset + first.length)) =
      offset + (first ++ second).length := by
    rw [List.length_append]; omega
  rw [overwrite, overwrite, overwrite, List.take_append_of_le_length (by omega),
    List.take_of_length_le (by omega), List.drop_append, front, List.drop_of_length_le (by omega),
    List.drop_drop, behind, List.nil_append, List.append_assoc (bs.take offset)]

theorem overwrite_self (bs data : Bytes) (offset : Nat) (fits : offset + data.length ≤ bs.length) :
    (bs.overwrite offset data).overwrite offset data = bs.overwrite offset data := by
  have whole : (bs.overwrite offset data).slice offset data.length = data := by
    have inside := slice_overwrite bs data offset 0 data.length (by omega) (by omega)
    rw [Nat.add_zero] at inside
    rw [inside, slice, List.drop_zero, List.take_length]
  have same := overwrite_slice (bs.overwrite offset data) offset data.length
    (by rw [length_overwrite _ _ _ fits]; exact fits)
  rwa [whole] at same

end Bytes

namespace InlineType

variable (t : InlineType)

/-! ### Layout -/

def parts : (t : InlineType) → t.Value → List (Nat × Nat)
  | int, v => [(4, Int32.toUInt32 v |>.toNat)]
  | double, v => [(8, Double.bits v |>.toNat)]
  | logical, v => [(4, (Logical.toWord v).toUInt32.toNat)]
  | complex, v => [(8, (Complex.re v).bits.toNat), (8, (Complex.im v).bits.toNat)]
  | raw, v => [(1, UInt8.toNat v)]

def layout (v : t.Value) : Bytes := (t.parts v).flatMap (fun part => Bytes.littleEndian part.1 part.2)

theorem encode_eq_layout (v : t.Value) : t.encode v = t.layout v := by
  cases t with
  | raw =>
    have byte : Bytes.ofNat 1 (UInt8.toNat v) = [v] := by simp [Bytes.ofNat]
    rw [layout, parts, List.flatMap_singleton, ← Bytes.ofNat_eq_littleEndian, byte, encode]
  | _ => simp [encode, encodeInt, encodeDouble, layout, parts, Bytes.ofNat_eq_littleEndian]

/-! ### Slot by slot -/

theorem foldl_overwrite_encode (vs : List t.Value) (bs : Bytes) (offset i : Nat)
    (fits : offset + (i + vs.length) * t.width ≤ bs.length) :
    (vs.zipIdx i).foldl (fun out slot => out.overwrite (offset + slot.2 * t.width) (t.encode slot.1)) bs =
      bs.overwrite (offset + i * t.width) (t.encodeAll vs) := by
  induction vs generalizing bs i with
  | nil => exact (Bytes.overwrite_nil bs _).symm
  | cons v vs ih =>
    have place : offset + (i + 1) * t.width = offset + i * t.width + (t.encode v).length := by
      rw [t.length_encode, Nat.succ_mul, Nat.add_assoc]
    have next : i + (vs.length + 1) = i + 1 + vs.length := by omega
    rw [List.length_cons, next] at fits
    have room : offset + i * t.width + (t.encode v).length ≤ bs.length := by
      rw [Nat.add_mul] at fits
      omega
    rw [List.zipIdx_cons, List.foldl_cons,
      ih _ (i + 1) (by rw [Bytes.length_overwrite _ _ _ room]; exact fits), place,
      Bytes.overwrite_append _ _ _ _ room, encodeAll, encodeAll, List.flatMap_cons]

theorem decodeAll_drop (n : Nat) (bs : Bytes) (offset : Nat) :
    t.decodeAll n (bs.drop offset) =
      (List.range n).map (fun i => t.decode (bs.drop (offset + i * t.width))) := by
  refine List.ext_getElem? (fun i => ?_)
  rw [getElem?_decodeAll, List.getElem?_map]
  by_cases small : i < n
  · rw [if_pos small, List.getElem?_range small, Bytes.slot, Bytes.slice, decode_take, Option.map_some,
      List.drop_drop]
  · rw [if_neg small, List.getElem?_eq_none (by rw [List.length_range]; omega), Option.map_none]

theorem slice_encodeAll {vs : List t.Value} {i : Nat} {v : t.Value} (found : vs[i]? = some v) :
    (t.encodeAll vs).slice (i * t.width) t.width = t.encode v :=
  Bytes.slot_flatMap vs (fun v _ => t.length_encode v) found

/-! ### Storing what was loaded -/

/-- The word a logical is stored as once it was read. -/
def canonicalWord (word : Int32) : Int32 := if word = 0 then 0 else if word = intNA then intNA else 1

theorem toWord_ofWord (word : Int32) : (Logical.ofWord word).toWord = canonicalWord word := by
  rw [Logical.ofWord, canonicalWord]
  split
  · rfl
  · split <;> rfl

theorem encodeInt_decodeInt {bs : Bytes} (four : bs.length = 4) : encodeInt (decodeInt bs) = bs := by
  have small := Bytes.toNat_lt bs
  rw [four] at small
  have word : (UInt32.ofNat (Bytes.toNat bs)).toNat = Bytes.toNat bs := by
    rw [UInt32.toNat_ofNat']
    exact Nat.mod_eq_of_lt small
  have whole := Bytes.ofNat_toNat bs
  rw [four] at whole
  rw [encodeInt, decodeInt, List.take_of_length_le (by omega), UInt32.toUInt32_toInt32, word, whole]

theorem encodeDouble_decodeDouble (bs : Bytes) (eight : 8 ≤ bs.length) :
    encodeDouble (decodeDouble bs) = bs.take 8 := by
  have size : (bs.take 8).length = 8 := by rw [List.length_take]; omega
  have small := Bytes.toNat_lt (bs.take 8)
  have whole := Bytes.ofNat_toNat (bs.take 8)
  rw [size] at small whole
  have word : (UInt64.ofNat (Bytes.toNat (bs.take 8))).toNat = Bytes.toNat (bs.take 8) := by
    rw [UInt64.toNat_ofNat']
    exact Nat.mod_eq_of_lt small
  rw [encodeDouble, decodeDouble, word, whole]

/-- Only logicals forget what their bytes were. -/
theorem encode_decode {bs : Bytes} (kept : t ≠ .logical) (size : bs.length = t.width) :
    t.encode (t.decode bs) = bs := by
  cases t with
  | int => exact encodeInt_decodeInt size
  | double =>
    have eight : bs.length = 8 := size
    have whole := encodeDouble_decodeDouble bs (by omega)
    rwa [List.take_of_length_le (by omega)] at whole
  | logical => exact absurd rfl kept
  | complex =>
    have sixteen : bs.length = 16 := size
    have re := encodeDouble_decodeDouble bs (by omega)
    have im := encodeDouble_decodeDouble (bs.drop 8) (by rw [List.length_drop]; omega)
    rw [List.take_of_length_le (by rw [List.length_drop]; omega)] at im
    change encodeDouble (decodeDouble bs) ++ encodeDouble (decodeDouble (bs.drop 8)) = bs
    rw [re, im, List.take_append_drop]
  | raw =>
    obtain ⟨b, rfl⟩ := List.length_eq_one_iff.mp size
    rfl

theorem encodeAll_decodeAll (kept : t ≠ .logical) (n : Nat) (bs : Bytes)
    (fits : n * t.width ≤ bs.length) : t.encodeAll (t.decodeAll n bs) = bs.take (n * t.width) := by
  induction n generalizing bs with
  | zero => simp [decodeAll, encodeAll]
  | succ n ih =>
    rw [Nat.succ_mul] at fits
    have first : t.encode (t.decode bs) = bs.take t.width := by
      rw [← t.decode_take, t.encode_decode kept (by rw [List.length_take]; omega)]
    have rest := ih (bs.drop t.width) (by rw [List.length_drop]; omega)
    rw [encodeAll] at rest
    rw [decodeAll, encodeAll, List.flatMap_cons, first, rest, Nat.succ_mul, Nat.add_comm (n * t.width),
      List.take_add]

/-- What stands in a buffer after values were stored from an offset on. -/
structure Stores (bs : Bytes) (offset : Nat) (vs : List t.Value) (out : Bytes) : Prop where
  length : out.length = bs.length
  outside : ∀ k, k < offset ∨ offset + vs.length * t.width ≤ k → out[k]? = bs[k]?
  slots : ∀ i v, vs[i]? = some v → out.slice (offset + i * t.width) t.width = t.layout v
  loaded : t.decodeAll vs.length (out.drop offset) = vs

theorem stores_overwrite (bs : Bytes) (offset : Nat) (vs : List t.Value)
    (fits : offset + vs.length * t.width ≤ bs.length) :
    t.Stores bs offset vs (bs.overwrite offset (t.encodeAll vs)) := by
  have size := t.length_encodeAll vs
  refine ⟨Bytes.length_overwrite _ _ _ (by omega), fun k outside => ?_, fun i v found => ?_, ?_⟩
  · rw [Bytes.getElem?_overwrite _ _ _ _ (by omega), size]
    rcases outside with before | behind
    · rw [if_pos before]
    · rw [if_neg (by omega), if_neg (by omega)]
  · have inside : i < vs.length := (List.getElem?_eq_some_iff.mp found).1
    have last := Bytes.slot_end_le t.width inside
    rw [Bytes.slice_overwrite _ _ _ _ _ (by omega) (by omega), t.slice_encodeAll found, encode_eq_layout]
  · rw [Bytes.drop_overwrite _ _ _ (by omega), t.decodeAll_encodeAll]

/-- The word of a logical's slot, before and after what was loaded is stored. -/
theorem word_stored_back (n : Nat) (bs : Bytes) (offset : Nat) (fits : offset + n * 4 ≤ bs.length) {i : Nat}
    (small : i < n) : ∃ word : Int32,
      bs.slice (offset + i * 4) 4 = Bytes.littleEndian 4 word.toUInt32.toNat ∧
      (bs.overwrite offset (logical.encodeAll (logical.decodeAll n (bs.drop offset)))).slice
        (offset + i * 4) 4 = Bytes.littleEndian 4 (canonicalWord word).toUInt32.toNat := by
  have size : (bs.slice (offset + i * 4) 4).length = 4 := by
    rw [Bytes.slice, List.length_take, List.length_drop]; omega
  have loaded : (logical.decodeAll n (bs.drop offset))[i]? =
      some (Logical.ofWord (decodeInt (bs.slice (offset + i * 4) 4))) := by
    rw [getElem?_decodeAll, if_pos small, Bytes.slot, Bytes.slice, List.drop_drop]
    rfl
  have stored := (logical.stores_overwrite bs offset (logical.decodeAll n (bs.drop offset))
    (by rw [length_decodeAll]; exact fits)).slots i _ loaded
  refine ⟨decodeInt (bs.slice (offset + i * 4) 4), ?_, ?_⟩
  · rw [← Bytes.ofNat_eq_littleEndian]
    exact (encodeInt_decodeInt size).symm
  · rw [← toWord_ofWord, ← Bytes.ofNat_eq_littleEndian]
    exact stored.trans (logical.encode_eq_layout _).symm

/-- Values that are stored one after another from an offset on fill their slots with their layout and no
other byte, and read back. Values that are loaded and stored again give the bytes there were, except that
the words of logicals become canonical, and loading and storing once more changes nothing. -/
theorem buffer_round_trips (bs : Bytes) (offset : Nat) :
    (∀ vs : List t.Value, offset + vs.length * t.width ≤ bs.length →
      vs.zipIdx.foldl (fun out slot => out.overwrite (offset + slot.2 * t.width) (t.encode slot.1)) bs =
        bs.overwrite offset (t.encodeAll vs) ∧
      t.Stores bs offset vs (bs.overwrite offset (t.encodeAll vs))) ∧
    ∀ (n : Nat) (loaded : List t.Value) (back : Bytes), offset + n * t.width ≤ bs.length →
      loaded = t.decodeAll n (bs.drop offset) → back = bs.overwrite offset (t.encodeAll loaded) →
      loaded = (List.range n).map (fun i => t.decode (bs.drop (offset + i * t.width))) ∧
      (t ≠ .logical → back = bs) ∧
      (t = .logical →
        (∀ k, k < offset ∨ offset + n * t.width ≤ k → back[k]? = bs[k]?) ∧
        ∀ i, i < n → ∃ word : Int32,
          bs.slice (offset + i * 4) 4 = Bytes.littleEndian 4 word.toUInt32.toNat ∧
          back.slice (offset + i * 4) 4 = Bytes.littleEndian 4 (canonicalWord word).toUInt32.toNat) ∧
      t.decodeAll n (back.drop offset) = loaded ∧
      back.overwrite offset (t.encodeAll (t.decodeAll n (back.drop offset))) = back := by
  refine ⟨fun vs fits => ⟨?_, t.stores_overwrite bs offset vs fits⟩, ?_⟩
  · have loop := t.foldl_overwrite_encode vs bs offset 0 (by rw [Nat.zero_add]; exact fits)
    rwa [Nat.zero_mul, Nat.add_zero] at loop
  rintro n loaded back fits rfl rfl
  have count := t.length_decodeAll n (bs.drop offset)
  have stored := t.stores_overwrite bs offset (t.decodeAll n (bs.drop offset)) (by rw [count]; exact fits)
  have again := stored.loaded
  rw [count] at again
  refine ⟨t.decodeAll_drop n bs offset, fun kept => ?_, ?_, again, ?_⟩
  · rw [t.encodeAll_decodeAll kept n _ (by rw [List.length_drop]; omega)]
    exact Bytes.overwrite_slice bs offset _ fits
  · rintro rfl
    refine ⟨fun k outside => stored.outside k (by rwa [count]), fun i small => ?_⟩
    exact word_stored_back n bs offset fits small
  · rw [again]
    exact Bytes.overwrite_self bs _ offset (by rw [t.length_encodeAll, count]; exact fits)

theorem buffer_round_trips_between_bytes :
    logical.Stores [9, 7, 0, 0, 0, 9] 1 [Logical.na] [9, 0, 0, 0, 128, 9] ∧
    ∃ back : Bytes, back = [9, 1, 0, 0, 0, 9] ∧
      Bytes.overwrite [9, 7, 0, 0, 0, 9] 1 (logical.encodeAll [Logical.true]) = back ∧
      back.overwrite 1 (logical.encodeAll (logical.decodeAll 1 (back.drop 1))) = back :=
  ⟨((buffer_round_trips logical [9, 7, 0, 0, 0, 9] 1).1 [Logical.na] (by decide)).2,
    [9, 1, 0, 0, 0, 9], rfl, by decide,
    ((buffer_round_trips logical [9, 7, 0, 0, 0, 9] 1).2 1 [Logical.true] [9, 1, 0, 0, 0, 9] (by decide)
      (by decide) (by decide)).2.2.2.2⟩

end InlineType
end VectorHeap
