import VectorHeap.Heap.Frames
import VectorHeap.Heap.Inspection

/-! Sessions: a heap with named variables, frames and contexts.
The names are the roots of the heap. Handles and addresses can be noted under names too; a note
keeps nothing alive. -/
namespace VectorHeap

structure Session where
  heap : Heap := {}
  objects : Table String Object := .empty
  frames : Table String FrameId := .empty
  contexts : Table String ContextId := .empty
  handles : Table String Handle := .empty
  addresses : Table String Address := .empty
  buffers : Table String BufferId := .empty

/-! ### Answers -/

inductive ObjectView
  | vector (state : VectorState) (names : List String)
  | string (text : String) (isNA : Bool) (handle : Handle) (names : List String)

inductive ElemView
  | inline (t : InlineType) (v : t.Value)
  | object (o : ObjectView)

structure ElemInfo where
  type : ElemType
  isNA : Bool
  text : String
  int? : Option Int32
  double? : Option Double
  string? : Option String
  vector? : Option VectorState

structure StringInfo where
  text : String
  size : Nat
  isNA : Bool
  handle : Handle
  placement : Placement
  quoted : String

structure PeerView where
  handle : Handle
  length : Nat
  capacity : Nat
  released : Bool
  placement : Placement
  owner : Option ObjectView

inductive ValueView
  | environment (names : List String)
  | other (text : String) (target : Option ObjectView) (isVector : Bool)

inductive Reply
  | nothing
  | flag (b : Bool)
  | count (n : Nat)
  | handle (h : Handle)
  | text (s : String)
  | bytes (bs : Bytes)
  | elem (e : ElemView)
  | elems (es : List ElemView)
  | elemInfo (e : ElemInfo)
  | object (o : ObjectView)
  | stringInfo (s : StringInfo)
  | peer (p : PeerView)
  /-- The answers of two releases in a row, and whether the peer is released then. -/
  | released (first second after : Bool)
  | result (same : Bool)
  | sharing (s : SharingState)
  | sharings (ss : List (Option SharingState))
  | snapshot (s : Snapshot)
  | value (v : ValueView)
  | previous (v : Option ValueView)
  | binding (v : Option ValueView)
  | names (ns : List String)

namespace Session

/-! ### Naming -/

def roots (s : Session) : List Ref :=
  s.objects.values.map Ref.ofObject ++ s.frames.values.map .frame ++ s.contexts.values.map .context

def sorted (names : List String) : List String := names.mergeSort (fun a b => decide (¬ b < a))

def namesIn {α : Type} [DecidableEq α] (t : Table String α) (a : α) : List String :=
  sorted ((t.entries.filter (fun e => e.2 = a)).map Prod.fst)

/-! ### Views -/

def viewObject (s : Session) (o : Object) : Option ObjectView :=
  let names := namesIn s.objects o
  match o with
  | .vector v => (s.heap.vectorState? v).map (fun state => .vector state names)
  | .string id => some (.string (s.heap.text id) (s.heap.stringIsNA id) (s.heap.handleOf o) names)

def viewElem (s : Session) : Elem → Option ElemView
  | .int v => some (.inline .int v)
  | .double v => some (.inline .double v)
  | .logical v => some (.inline .logical v)
  | .complex v => some (.inline .complex v)
  | .raw v => some (.inline .raw v)
  | .str id => (s.viewObject (.string id)).map .object
  | .list v => (s.viewObject (.vector v)).map .object

def viewValue (s : Session) (v : Value) : ValueView :=
  match v with
  | .environment f => .environment (namesIn s.frames f)
  | _ =>
    let target := v.sharingTarget?.bind (fun id => s.viewObject (.vector id))
    .other (s.heap.describeValue v) target v.vector?.isSome

def viewPeer (s : Session) (p : Peer) : PeerView where
  handle := p.handle
  length := p.length
  capacity := p.capacity
  released := p.released
  placement := p.backing.placement
  owner := if s.heap.isAlive p.owner then s.viewObject p.owner else none

end Session

/-! ### Actions -/

/-- What a session does: it answers or stops with a fault, and keeps what was done before. -/
abbrev Action := EStateM Fault Session

namespace Action

def run {α : Type} (op : Op α) : Action α := fun s =>
  match op s.heap with
  | .ok a h => .ok a { s with heap := h }
  | .error e h => .error e { s with heap := h }

def named {α : Type} (t : Session → Table String α) (name : String) : Action α := do
  match (t (← get)).find? name with
  | some a => return a
  | none => throw .dead

def object (name : String) : Action Object := named (·.objects) name

def vector (name : String) : Action VectorId := do
  match ← object name with
  | .vector v => return v
  | .string _ => throw .dead

def string (name : String) : Action StringId := do
  match ← object name with
  | .string id => return id
  | .vector _ => throw .dead

def frame (name : String) : Action FrameId := named (·.frames) name

def context (name : String) : Action ContextId := named (·.contexts) name

def bindVariable (name : String) (o : Object) : Action Unit :=
  modify (fun s => { s with objects := s.objects.insert name o })

def present {α : Type} (a : Option α) : Action α :=
  match a with
  | some a => pure a
  | none => throw .dead

def viewElem (e : Elem) : Action ElemView := do present ((← get).viewElem e)

def viewObject (o : Object) : Action ObjectView := do present ((← get).viewObject o)

def viewPrevious (v : Option Value) : Action Reply :=
  return .previous (v.map (← get).viewValue)

end Action
end VectorHeap
