import VectorHeap.Element
import VectorHeap.Native.Bytes

/-! The native form of inline elements: little-endian, a logical as a 4-byte integer, a complex
number as its real part and then its imaginary part. -/
namespace VectorHeap

namespace InlineType

def width (t : InlineType) : Nat := t.elemType.nativeWidth

def encodeInt (v : Int32) : Bytes := .ofNat 4 v.toUInt32.toNat

def decodeInt (bs : Bytes) : Int32 := (UInt32.ofNat (Bytes.toNat (bs.take 4))).toInt32

def encodeDouble (v : Double) : Bytes := .ofNat 8 v.bits.toNat

def decodeDouble (bs : Bytes) : Double := ⟨UInt64.ofNat (Bytes.toNat (bs.take 8))⟩

def encode : (t : InlineType) → t.Value → Bytes
  | int, v => encodeInt v
  | double, v => encodeDouble v
  | logical, v => encodeInt (Logical.toWord v)
  | complex, v => encodeDouble (Complex.re v) ++ encodeDouble (Complex.im v)
  | raw, v => [v]

def decode : (t : InlineType) → Bytes → t.Value
  | int, bs => decodeInt bs
  | double, bs => decodeDouble bs
  | logical, bs => Logical.ofWord (decodeInt bs)
  | complex, bs => (⟨decodeDouble bs, decodeDouble (bs.drop 8)⟩ : Complex)
  | raw, bs => bs.headD 0

def encodeAll (t : InlineType) (vs : List t.Value) : Bytes := vs.flatMap t.encode

def decodeAll (t : InlineType) : Nat → Bytes → List t.Value
  | 0, _ => []
  | n + 1, bs => t.decode bs :: decodeAll t n (bs.drop t.width)

theorem length_encode (t : InlineType) (v : t.Value) : (t.encode v).length = t.width := by
  cases t <;> simp [encode, encodeInt, encodeDouble, width, elemType, ElemType.nativeWidth]

theorem decodeInt_encodeInt (v : Int32) (rest : Bytes) : decodeInt (encodeInt v ++ rest) = v := by
  have len : (encodeInt v).length = 4 := by simp [encodeInt]
  have small : v.toUInt32.toNat < Nat.pow 256 4 := UInt32.toNat_lt v.toUInt32
  rw [decodeInt, List.take_append_of_le_length (by omega), List.take_of_length_le (by omega),
    encodeInt, Bytes.toNat_ofNat, Nat.mod_eq_of_lt small]
  simp

theorem decodeDouble_encodeDouble (v : Double) (rest : Bytes) :
    decodeDouble (encodeDouble v ++ rest) = v := by
  have len : (encodeDouble v).length = 8 := by simp [encodeDouble]
  have small : v.bits.toNat < Nat.pow 256 8 := UInt64.toNat_lt v.bits
  rw [decodeDouble, List.take_append_of_le_length (by omega), List.take_of_length_le (by omega),
    encodeDouble, Bytes.toNat_ofNat, Nat.mod_eq_of_lt small]
  simp

theorem decode_encode_append (t : InlineType) (v : t.Value) (rest : Bytes) :
    t.decode (t.encode v ++ rest) = v := by
  cases t with
  | int => exact decodeInt_encodeInt v rest
  | double => exact decodeDouble_encodeDouble v rest
  | logical =>
    change Logical.ofWord (decodeInt (encodeInt (Logical.toWord v) ++ rest)) = v
    rw [decodeInt_encodeInt, Logical.ofWord_toWord]
  | complex =>
    obtain ⟨re, im⟩ := v
    have len : (encodeDouble re).length = 8 := by simp [encodeDouble]
    change Complex.mk (decodeDouble (encodeDouble re ++ encodeDouble im ++ rest))
      (decodeDouble ((encodeDouble re ++ encodeDouble im ++ rest).drop 8)) = ⟨re, im⟩
    rw [List.append_assoc, decodeDouble_encodeDouble, List.drop_append_of_le_length (by omega),
      List.drop_of_length_le (by omega), List.nil_append, decodeDouble_encodeDouble]
  | raw => rfl

theorem decodeAll_encodeAll (t : InlineType) (vs : List t.Value) (rest : Bytes) :
    t.decodeAll vs.length (t.encodeAll vs ++ rest) = vs := by
  induction vs with
  | nil => rfl
  | cons v vs ih =>
    have len := length_encode t v
    simp only [encodeAll, List.flatMap_cons, List.length_cons, decodeAll, List.append_assoc] at ih ⊢
    rw [decode_encode_append, List.drop_append_of_le_length (by omega),
      List.drop_of_length_le (by omega), List.nil_append, ih]

end InlineType

def Elem.encode : Elem → Bytes
  | .int v => InlineType.int.encode v
  | .double v => InlineType.double.encode v
  | .logical v => InlineType.logical.encode v
  | .complex v => InlineType.complex.encode v
  | .raw v => InlineType.raw.encode v
  | .str _ | .list _ => []

theorem Elem.encode_ofValue (t : InlineType) (x : t.Value) : (ofValue t x).encode = t.encode x := by
  cases t <;> rfl

end VectorHeap
