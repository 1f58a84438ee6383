import VectorHeap.Vector.Copying

/-! Bindings and calls: where values are bound to names and passed as arguments the sharing states of
vectors move. Nothing else moves them forward by itself. -/
namespace VectorHeap

/-- An evaluated argument. A constant is made anew on every evaluation. -/
structure Argument where
  value : Value
  constant : Bool := false
deriving DecidableEq

namespace Op

def newFrame : Op FrameId := addFrame .empty

def cloneFrame (f : FrameId) : Op FrameId := do addFrame (← frame f)

def binding? (f : FrameId) (name : String) : Op (Option Value) := return (← frame f).find? name

def insertBinding (f : FrameId) (name : String) (value : Value) : Op (Option Value) := do
  let previous ← binding? f name
  modify (·.modifyFrame f (·.insert name value))
  return previous

/-- Binds a value. A plain vector takes a step towards shared unless the name is bound to it
already; wrapped vectors keep their state. Answers the previous value. -/
def assign (f : FrameId) (name : String) (value : Value) : Op (Option Value) := do
  let previous ← binding? f name
  match value.vector? with
  | some v =>
    unless previous.any (·.same value) do
      discard (applyTrigger v .assign)
  | none => pure ()
  insertBinding f name value

def removeBinding (f : FrameId) (name : String) : Op (Option Value) := do
  let previous ← binding? f name
  modify (·.modifyFrame f (·.erase name))
  return previous

/-- Moves the state of an argument's vector and answers it. Constants are left alone. -/
def passArgument (a : Argument) : Op (Option SharingState) := do
  if a.constant then return none
  match a.value.sharingTarget? with
  | some v => return some (← applyTrigger v .pass)
  | none => return none

def passArguments : List Argument → Op Unit
  | [] => pure ()
  | a :: rest => do
    discard (passArgument a)
    passArguments rest

end Op
end VectorHeap
