import VectorHeap.Native.Bytes
import VectorHeap.Text.Utf8

/-! Text that is encoded and decoded again. An encoded character is a leading byte and up to three
trailing bytes of six bits each, and none of them is zero unless the character is. -/
namespace VectorHeap.Utf8

deriving instance DecidableEq for Pending

/-! ### Single bytes -/

theorem toNat_byte {n : Nat} (small : n < 256) : (UInt8.ofNat n).toNat = n := by
  rw [UInt8.toNat_ofNat']
  exact Nat.mod_eq_of_lt small

theorem start_ascii {n : Nat} (small : n < 0x80) :
    start (UInt8.ofNat n) = ([Char.ofNat n], none) := by
  unfold start
  rw [toNat_byte (by omega), if_pos small]

theorem start_two : ∀ n < 32, 2 ≤ n →
    start (UInt8.ofNat (n + 192)) = ([], some ⟨1, n, 0x80, 0xBF⟩) := by decide

/-- Overlong forms and surrogates are kept out by what may follow. -/
theorem start_three : ∀ n < 16, start (UInt8.ofNat (n + 224)) =
    ([], some ⟨2, n, if n = 0 then 0xA0 else 0x80, if n = 13 then 0x9F else 0xBF⟩) := by decide

theorem start_four : ∀ n < 5, start (UInt8.ofNat (n + 240)) =
    ([], some ⟨3, n, if n = 0 then 0x90 else 0x80, if n = 4 then 0x8F else 0xBF⟩) := by decide

theorem step_tail {p : Pending} {n : Nat} (bits : n < 64) (low : p.low.toNat ≤ n + 128)
    (high : n + 128 ≤ p.high.toNat) : step (some p) (UInt8.ofNat (n + 128)) =
      if p.missing ≤ 1 then ([Char.ofNat (p.value * 64 + n)], none)
      else ([], some ⟨p.missing - 1, p.value * 64 + n, 0x80, 0xBF⟩) := by
  have byte : (UInt8.ofNat (n + 128)).toNat = n + 128 := toNat_byte (by omega)
  have inside : p.low ≤ UInt8.ofNat (n + 128) ∧ UInt8.ofNat (n + 128) ≤ p.high := by
    rw [UInt8.le_iff_toNat_le, UInt8.le_iff_toNat_le, byte]
    exact ⟨low, high⟩
  simp only [step]
  rw [if_pos inside, byte, Nat.add_sub_cancel]

theorem decodeFrom_cons (p : Option Pending) (b : UInt8) (bs : List UInt8) :
    decodeFrom p (b :: bs) = (step p b).1 ++ decodeFrom (step p b).2 bs := rfl

theorem decodeFrom_last {v n : Nat} (bits : n < 64) (bs : List UInt8) :
    decodeFrom (some ⟨1, v, 0x80, 0xBF⟩) (UInt8.ofNat (n + 128) :: bs) =
      Char.ofNat (v * 64 + n) :: decodeFrom none bs := by
  have below : n + 128 ≤ (0xBF : UInt8).toNat := by
    change n + 128 ≤ 191
    omega
  rw [decodeFrom_cons, step_tail bits (Nat.le_add_left ..) below]
  rfl

theorem decodeFrom_middle {m v n : Nat} {low high : UInt8} (bits : n < 64)
    (above : low.toNat ≤ n + 128) (below : n + 128 ≤ high.toNat) (bs : List UInt8) :
    decodeFrom (some ⟨m + 2, v, low, high⟩) (UInt8.ofNat (n + 128) :: bs) =
      decodeFrom (some ⟨m + 1, v * 64 + n, 0x80, 0xBF⟩) bs := by
  rw [decodeFrom_cons, step_tail bits above below, if_neg (by simp)]
  rfl

/-! ### Characters -/

theorem decodeFrom_char (c : Char) (bs : List UInt8) :
    decodeFrom none (String.utf8EncodeChar c ++ bs) = c :: decodeFrom none bs := by
  have valid : c.val.toNat < 0xD800 ∨ 0xDFFF < c.val.toNat ∧ c.val.toNat < 0x110000 := c.valid
  have same : Char.ofNat c.val.toNat = c := Char.ofNat_toNat c
  unfold String.utf8EncodeChar
  generalize c.val.toNat = n at valid same
  by_cases one : n ≤ 127
  · rw [if_pos one, List.singleton_append, decodeFrom_cons]
    change (start _).1 ++ decodeFrom (start _).2 bs = _
    rw [start_ascii (by omega), same]
    rfl
  rw [if_neg one]
  by_cases two : n ≤ 2047
  · have bits : n / 64 % 32 * 64 + n % 64 = n := by omega
    rw [if_pos two, List.cons_append, List.singleton_append, decodeFrom_cons]
    change (start _).1 ++ decodeFrom (start _).2 _ = _
    rw [start_two _ (by omega) (by omega), List.nil_append, decodeFrom_last (by omega), bits, same]
  rw [if_neg two]
  by_cases three : n ≤ 65535
  · have bits : (n / 4096 % 16 * 64 + n / 64 % 64) * 64 + n % 64 = n := by omega
    rw [if_pos three, List.cons_append, List.cons_append, List.singleton_append, decodeFrom_cons]
    change (start _).1 ++ decodeFrom (start _).2 _ = _
    rw [start_three _ (by omega), List.nil_append, decodeFrom_middle (by omega) _ _,
      decodeFrom_last (by omega), bits, same]
    · split
      · change 160 ≤ _
        omega
      · exact Nat.le_add_left ..
    · split
      · change _ ≤ 159
        omega
      · change _ ≤ 191
        omega
  · have bits : ((n / 262144 % 8 * 64 + n / 4096 % 64) * 64 + n / 64 % 64) * 64 + n % 64 = n := by omega
    rw [if_neg three, List.cons_append, List.cons_append, List.cons_append, List.singleton_append,
      decodeFrom_cons]
    change (start _).1 ++ decodeFrom (start _).2 _ = _
    rw [start_four _ (by omega), List.nil_append, decodeFrom_middle (by omega) _ _,
      decodeFrom_middle (by omega) (Nat.le_add_left ..) (show _ ≤ 191 by omega),
      decodeFrom_last (by omega), bits, same]
    · split
      · change 144 ≤ _
        omega
      · exact Nat.le_add_left ..
    · split
      · change _ ≤ 143
        omega
      · change _ ≤ 191
        omega

theorem decode_flatMap (cs : List Char) :
    decode (cs.flatMap String.utf8EncodeChar) = String.ofList cs := by
  have all : ∀ cs : List Char, decodeFrom none (cs.flatMap String.utf8EncodeChar) = cs := by
    intro cs
    induction cs with
    | nil => rfl
    | cons c cs ih => rw [List.flatMap_cons, decodeFrom_char, ih]
  rw [decode, all]

theorem decode_encode (s : String) : decode (encode s) = s := by
  rw [encode, decode_flatMap, String.ofList_toList]

/-! ### Zero bytes -/

theorem utf8EncodeChar_zero : String.utf8EncodeChar '\x00' = [0] := by decide

theorem ne_zero_of_mem {c : Char} (other : c ≠ '\x00') {b : UInt8}
    (mem : b ∈ String.utf8EncodeChar c) : b ≠ 0 := by
  have positive : c.val.toNat ≠ 0 := fun zero => other (Char.ext (UInt32.toNat_inj.mp zero))
  have byte : ∀ n < 256, n ≠ 0 → UInt8.ofNat n ≠ 0 := by
    intro n small nonzero same
    have numbers := congrArg UInt8.toNat same
    rw [toNat_byte small] at numbers
    exact nonzero numbers
  unfold String.utf8EncodeChar at mem
  generalize c.val.toNat = n at positive mem
  dsimp only at mem
  split at mem
  · rw [List.mem_singleton.mp mem]
    exact byte n (by omega) positive
  · split at mem
    · simp only [List.mem_cons, List.not_mem_nil, or_false] at mem
      rcases mem with rfl | rfl <;> exact byte _ (by omega) (by omega)
    · split at mem
      · simp only [List.mem_cons, List.not_mem_nil, or_false] at mem
        rcases mem with rfl | rfl | rfl <;> exact byte _ (by omega) (by omega)
      · simp only [List.mem_cons, List.not_mem_nil, or_false] at mem
        rcases mem with rfl | rfl | rfl | rfl <;> exact byte _ (by omega) (by omega)

def cut (s : String) : String := String.ofList (s.toList.takeWhile (· != '\x00'))

theorem cut_of_not_mem {s : String} (none : '\x00' ∉ s.toList) : cut s = s := by
  have all : (s.toList ++ []).takeWhile (· != '\x00') = s.toList ++ [] :=
    List.takeWhile_append_of_pos (fun c hc => bne_iff_ne.mpr (fun same => none (same ▸ hc)))
  rw [List.append_nil] at all
  rw [cut, all, String.ofList_toList]

/-- The first zero byte of an encoded text ends it where its first zero character is. -/
theorem untilZero_flatMap (cs : List Char) (rest : List UInt8) :
    Bytes.untilZero (cs.flatMap String.utf8EncodeChar ++ 0 :: rest) =
      (cs.takeWhile (· != '\x00')).flatMap String.utf8EncodeChar := by
  induction cs with
  | nil => rfl
  | cons c cs ih =>
    by_cases zero : c = '\x00'
    · subst zero
      rw [List.flatMap_cons, utf8EncodeChar_zero]
      rfl
    · have skipped : (c :: cs).takeWhile (· != '\x00') = c :: cs.takeWhile (· != '\x00') :=
        List.takeWhile_cons_of_pos (bne_iff_ne.mpr zero)
      unfold Bytes.untilZero at ih ⊢
      rw [skipped, List.flatMap_cons, List.flatMap_cons, List.append_assoc,
        List.takeWhile_append_of_pos (fun b hb => bne_iff_ne.mpr (ne_zero_of_mem zero hb)), ih]

theorem decode_untilZero (s : String) (rest : List UInt8) :
    decode (Bytes.untilZero (encode s ++ 0 :: rest)) = cut s := by
  rw [encode, untilZero_flatMap, decode_flatMap, cut]

end VectorHeap.Utf8
