import VectorHeap.Session.Run

/-! A managed buffer by itself, with the commands that a vector would give it. -/
namespace VectorHeap

inductive BufferCommand
  | get (index : Nat)
  | describe (index : Nat)
  | set (index : Nat) (e : ElemArg)
  | resize (capacity : Nat)
  | isComplete (length : Nat)
  | take (length : Nat)
  | elemEq (a b : Nat)

inductive BufferReply
  | nothing
  | flag (b : Bool)
  | text (s : String)
  | elem (e : ElemView)
  | buffer (type : ElemType) (slots : List ElemView)

structure BufferSession where
  session : Session
  context : ContextId
  buffer : Buffer

namespace BufferSession

def start (type : ElemType) (filled : Option Nat) : Except Fault BufferSession :=
  let session := Session.start .default
  match (Action.context "main" : Action ContextId) session with
  | .error e _ => .error e
  | .ok c session =>
    match Action.run (Op.resizeBuffer c (.empty type) (filled.getD 0)) session with
    | .error e _ => .error e
    | .ok buffer session => .ok { session, context := c, buffer }

def exec (c : ContextId) (b : Buffer) : BufferCommand → Action (BufferReply × Buffer)
  | .get i => do
    match b.get? i with
    | some e => return (.elem (← Action.viewElem e), b)
    | none => return (.nothing, b)
  | .describe i => do
    match b.get? i with
    | some e => return (.text ((← get).heap.describeElem e), b)
    | none => return (.nothing, b)
  | .set i e => do
    let e ← Action.elem (pure c) e
    match ← Action.run (Op.ofPanic (b.store? i e)) with
    | some b' => return (.flag true, b')
    | none => return (.flag false, b)
  | .resize n => return (.nothing, ← Action.run (Op.resizeBuffer c b n))
  | .isComplete n => do
    let h := (← get).heap
    return (.flag (← Action.run (Op.ofPanic (b.complete? h.isNA n))), b)
  | .take n => do
    let front ← Action.run (Op.ofPanic (b.take? n))
    return (.buffer front.type (← Action.viewElems front.slots), b)
  | .elemEq i j => do
    match b.get? i, b.get? j with
    | some x, some y => return (.flag ((← get).heap.elemEq x y), b)
    | none, none => return (.flag true, b)
    | _, _ => return (.flag false, b)

def step (s : BufferSession) (command : BufferCommand) :
    Except Fault BufferReply × BufferSession :=
  match exec s.context s.buffer command s.session with
  | .ok (r, buffer) session => (.ok r, { s with session, buffer })
  | .error e session => (.error e, { s with session })

end BufferSession
end VectorHeap
