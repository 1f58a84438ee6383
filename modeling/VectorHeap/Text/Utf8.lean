/-! UTF-8 text as bytes.
Decoding never fails: each longest part that could still have begun a character but does not is
replaced by one U+FFFD. -/
namespace VectorHeap.Utf8

def replacement : Char := '\uFFFD'

def encode (s : String) : List UInt8 := s.toList.flatMap String.utf8EncodeChar

/-- A character whose first bytes were read: how many are still to come, the code point so far, and
the range that the next byte must lie in. -/
structure Pending where
  missing : Nat
  value : Nat
  low : UInt8
  high : UInt8

/-- What a byte at the start of a character decides: the characters it completes and what it leaves
open. The narrow ranges keep out overlong forms, surrogates and values above U+10FFFF. -/
def start (b : UInt8) : List Char × Option Pending :=
  let n := b.toNat
  if n < 0x80 then ([Char.ofNat n], none)
  else if 0xC2 ≤ n ∧ n ≤ 0xDF then ([], some ⟨1, n - 0xC0, 0x80, 0xBF⟩)
  else if n = 0xE0 then ([], some ⟨2, 0, 0xA0, 0xBF⟩)
  else if n = 0xED then ([], some ⟨2, 0xD, 0x80, 0x9F⟩)
  else if 0xE1 ≤ n ∧ n ≤ 0xEF then ([], some ⟨2, n - 0xE0, 0x80, 0xBF⟩)
  else if n = 0xF0 then ([], some ⟨3, 0, 0x90, 0xBF⟩)
  else if 0xF1 ≤ n ∧ n ≤ 0xF3 then ([], some ⟨3, n - 0xF0, 0x80, 0xBF⟩)
  else if n = 0xF4 then ([], some ⟨3, 4, 0x80, 0x8F⟩)
  else ([replacement], none)

def step (p : Option Pending) (b : UInt8) : List Char × Option Pending :=
  match p with
  | none => start b
  | some p =>
    if p.low ≤ b ∧ b ≤ p.high then
      let value := p.value * 64 + (b.toNat - 0x80)
      if p.missing ≤ 1 then ([Char.ofNat value], none)
      else ([], some ⟨p.missing - 1, value, 0x80, 0xBF⟩)
    else
      let (out, next) := start b
      (replacement :: out, next)

def decodeFrom (p : Option Pending) : List UInt8 → List Char
  | [] => if p.isSome then [replacement] else []
  | b :: bs =>
    let (out, next) := step p b
    out ++ decodeFrom next bs

def decode (bs : List UInt8) : String := String.ofList (decodeFrom none bs)

end VectorHeap.Utf8
