/-! Hexadecimal text, lower case. -/
namespace VectorHeap.Hex

def digit (n : Nat) : Char := Nat.digitChar (n % 16)

def digitValue? (c : Char) : Option Nat :=
  if '0' ≤ c ∧ c ≤ '9' then some (c.toNat - 48)
  else if 'a' ≤ c ∧ c ≤ 'f' then some (c.toNat - 87)
  else if 'A' ≤ c ∧ c ≤ 'F' then some (c.toNat - 55)
  else none

def ofNat (n : Nat) : String := String.ofList (Nat.toDigits 16 n)

def marked (n : Nat) : String := "0x" ++ ofNat n

def ofByte (b : UInt8) : List Char := [digit (b.toNat / 16), digit b.toNat]

def ofBytes (bs : List UInt8) : String := String.ofList (bs.flatMap ofByte)

def ofWord (w : UInt64) : String :=
  String.ofList ((List.range 16).map (fun i => digit (w.toNat >>> (4 * (15 - i)))))

def digits? : List Char → Nat → Option Nat
  | [], n => some n
  | c :: cs, n => (digitValue? c).bind (fun d => digits? cs (16 * n + d))

def toNat? (cs : List Char) : Option Nat := if cs.isEmpty then none else digits? cs 0

def ofMarked? : List Char → Option Nat
  | '0' :: 'x' :: cs => toNat? cs
  | _ => none

def toBytes? : List Char → Option (List UInt8)
  | [] => some []
  | [_] => none
  | a :: b :: cs => do
    let high ← digitValue? a
    let low ← digitValue? b
    let rest ← toBytes? cs
    pure (UInt8.ofNat (16 * high + low) :: rest)

end VectorHeap.Hex
