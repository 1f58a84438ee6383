import VectorHeap.Heap.Contents
import VectorHeap.Heap.Collection

/-! What can be seen of a heap: the state of a vector, texts that describe objects, equality of
elements, and the counts of a context. -/
namespace VectorHeap

/-- Where the contents of an object are, as far as an address tells. -/
inductive Placement
  | zero | sentinel | owned | external
deriving DecidableEq

def Backing.placement : Backing → Placement
  | .unallocated => .zero
  | .empty _ => .sentinel
  | .owned .. => .owned
  | .external .. => .external

structure VectorState where
  type : ElemType
  length : Nat
  capacity : Nat
  complete : Bool
  isNative : Bool
  handle : Handle
  placement : Placement
  sharing : SharingState
deriving DecidableEq

structure Snapshot where
  peers : Nat
  registered : Nat
  pending : Nat
  released : Nat
  liveBytes : Nat
  counter : UInt64
  addressIndex : Bool
  switches : List (ElemType × Bool)
deriving DecidableEq

def Context.snapshot (c : Context) : Snapshot where
  peers := c.registry.peers.size
  registered := c.registry.registered
  pending := c.reclaimer.pending
  released := c.reclaimer.released
  liveBytes := c.registry.liveBytes
  counter := c.registry.counter
  addressIndex := c.registry.byAddress.isSome
  switches := c.switches.positions

def Reclaimer.describe (r : Reclaimer) : String :=
  "Reclaimer \x7b name: " ++ Quoted.quote r.name ++
    s!", pending: {r.pending}, released: {r.released}" ++ " \x7d"

def Context.describe (c : Context) : String :=
  s!"NativeContext \x7b mirrors: {c.registry.peers.size}, reclaimer: " ++ c.reclaimer.describe ++
    " \x7d"

def Peer.describe (p : Peer) : String :=
  "mirror: address=" ++ Hex.marked p.backing.address ++ ", id=" ++ p.handle.display

namespace Heap

def vectorState? (h : Heap) (v : VectorId) : Option VectorState := do
  let cell ← h.vectors.find? v
  return {
    type := cell.type
    length := cell.length
    capacity := cell.capacity
    complete := cell.complete
    isNative := cell.buffer.isNone
    handle := h.handleOf (.vector v)
    placement := (h.backingOf (.vector v)).placement
    sharing := cell.sharing }

def describeVector (h : Heap) (v : VectorId) : String :=
  match h.vectors.find? v with
  | none => ""
  | some cell =>
    let side := if cell.buffer.isSome then "managed" else "native"
    let handle := h.handleOf (.vector v)
    s!"Vector({cell.type.name}, len={cell.length}, {side}, handle={handle.display})"

def text (h : Heap) (s : StringId) : String := ((h.strings.find? s).map (·.text)).getD ""

def stringIsNA (h : Heap) (s : StringId) : Bool := h.isNA (.str s)

def describeString (h : Heap) (s : StringId) : String :=
  if h.stringIsNA s then "NA" else Quoted.quote (h.text s)

def describeObject (h : Heap) : Object → String
  | .vector v => h.describeVector v
  | .string s => "CharSxp(" ++ h.describeString s ++ ")"

def describeElem (h : Heap) : Elem → String
  | .int v => "Int(" ++ toString v.toInt ++ ")"
  | .double v => "Double(" ++ Decimal.ofDouble v ++ ")"
  | .logical v => "Logical(" ++ v.display ++ ")"
  | .complex v => "Complex(" ++ v.display ++ ")"
  | .raw v => "Raw(0x" ++ Hex.ofBytes [v] ++ ")"
  | .str s => "Str(" ++ Quoted.quote (h.text s) ++ ")"
  | .list v => "List(" ++ h.describeVector v ++ ")"

def describeValue (h : Heap) : Value → String
  | .null => "NULL"
  | .vector v => h.describeVector v
  | .string s => h.describeString s
  | .dataFrame columns => "DataFrame(" ++ h.describeVector columns ++ ")"
  | .factor codes _ => "Factor(" ++ h.describeVector codes ++ ")"
  | .environment _ => "<environment>"

/-- Equality of elements: by value for inline elements, where doubles are also equal to themselves
bit for bit, by text and missingness for strings, by identity for lists. -/
def elemEq (h : Heap) : Elem → Elem → Bool
  | .int a, .int b => a == b
  | .double a, .double b => a == b || a.numEq b
  | .logical a, .logical b => a == b
  | .complex a, .complex b => a.numEq b
  | .raw a, .raw b => a == b
  | .str a, .str b => h.text a == h.text b && h.stringIsNA a == h.stringIsNA b
  | .list a, .list b => a == b
  | _, _ => false

/-- The native contents of an object: its slots, or its text with the zero byte. -/
def nativeBytes? (h : Heap) (o : Object) : Option Bytes := do
  let peer ← (h.peerOf? o).bind h.peers.find?
  if peer.backing.address = 0 then none
  match o with
  | .vector v =>
    let cell ← h.vectors.find? v
    return (h.contents peer.backing).take (cell.capacity * cell.type.nativeWidth)
  | .string _ => return h.contents peer.backing

def peerNamed? (h : Heap) (c : ContextId) (handle : Handle) : Option Peer := do
  let ctx ← h.contexts.find? c
  (ctx.registry.peer? handle).bind h.peers.find?

def describeHandle (h : Heap) (c : ContextId) (handle : Handle) : String :=
  match h.peerNamed? c handle with
  | none => "no mirror for " ++ handle.display
  | some peer =>
    if h.isAlive peer.owner then h.describeObject peer.owner
    else peer.describe ++ " (owner collected)"

end Heap
end VectorHeap
