import VectorHeap.Element
import VectorHeap.Handle
import VectorHeap.Native.Bytes

/-! Peers: the native side of an object.
A peer owns the handle by which native code names its object and, once the object was promoted, the
native contents. It knows its object without keeping it alive. It does keep alive the elements whose
handles lie in its contents: the pins, one for each slot. -/
namespace VectorHeap

/-- Zero is no address. -/
abbrev Address := Nat

/-- Where the contents are. -/
inductive Backing
  /-- No contents yet, or none any more. -/
  | unallocated
  /-- No slots: the context's sentinel block. -/
  | empty (address : Address)
  /-- A block of its own, freed on release. -/
  | owned (address : Address) (bytes : Bytes)
  /-- A foreign buffer, never freed here. -/
  | external (address : Address) (buffer : BufferId)
deriving DecidableEq, Inhabited

namespace Backing

def address : Backing → Address
  | unallocated => 0
  | empty address | owned address _ | external address _ => address

def isAllocated : Backing → Bool
  | unallocated => false
  | _ => true

def owned? : Backing → Option (Address × Bytes)
  | owned address bytes => some (address, bytes)
  | _ => none

def ownedBytes : Backing → Nat
  | owned _ bytes => bytes.length
  | _ => 0

end Backing

structure Peer where
  handle : Handle
  owner : Object
  backing : Backing := .unallocated
  length : Nat := 0
  capacity : Nat := 0
  pins : List Object := []
  released : Bool := false
deriving Inhabited

/-- The pin of a slot: replaces one that is there, otherwise goes behind the last. -/
def pinAt (pins : List Object) (slot : Nat) (o : Object) : List Object :=
  if slot < pins.length then pins.set slot o else pins ++ [o]

def pinFrom (pins : List Object) (slot : Nat) : List Object → List Object
  | [] => pins
  | o :: rest => pinFrom (pinAt pins slot o) (slot + 1) rest

end VectorHeap
