import VectorHeap.Native.Block
import VectorHeap.Text.Utf8

/-! A batch of strings in one block.
The block starts with one 8-byte pointer per string; behind the pointers lie the strings themselves,
each ended by a zero byte. Native code may point a slot elsewhere in the block before the strings
are read back. -/
namespace VectorHeap

structure StringArray where
  address : Nat
  count : Nat
  block : Bytes

namespace StringArray

def leastSize : Nat := 8

def terminated (s : String) : Bytes := Utf8.encode s ++ [0]

def offsets : List String → Nat → List Nat
  | [], _ => []
  | s :: rest, at' => at' :: offsets rest (at' + (terminated s).length)

def pointers (address : Nat) (strings : List String) : Bytes :=
  (offsets strings (8 * strings.length)).flatMap (fun o => Bytes.ofNat 8 (address + o))

def build (address : Nat) (strings : List String) (grants : Nat → Bool := Block.ample) :
    Except Error StringArray := do
  let contents := pointers address strings ++ strings.flatMap terminated
  let block ← Block.allocate (max contents.length leastSize) grants
  return ⟨address, strings.length, block.overwrite 0 contents⟩

def pointer (a : StringArray) (slot : Nat) : Nat := Bytes.toNat (Bytes.slice a.block (8 * slot) 8)

def setPointer (a : StringArray) (slot address : Nat) : StringArray :=
  { a with block := a.block.overwrite (8 * slot) (Bytes.ofNat 8 address) }

def readAt (a : StringArray) (address : Nat) : String :=
  Utf8.decode (Bytes.untilZero (a.block.drop (address - a.address)))

def strings (a : StringArray) : List String :=
  (List.range a.count).map (fun slot => a.readAt (a.pointer slot))

end StringArray
end VectorHeap
