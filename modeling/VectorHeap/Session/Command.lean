import VectorHeap.Session.Basic

/-! The commands of a session. -/
namespace VectorHeap

inductive ElemArg
  | inline (t : InlineType) (v : t.Value)
  | text (s : String)
  | naString
  | string (id : String)
  | vector (id : String)
  | emptyList

inductive HandleArg
  /-- The handle that a variable's object has now. -/
  | of (id : String)
  | literal (h : Handle)
  | noted (name : String)

inductive ValueArg
  | null
  | vector (id : String)
  | string (id : String)
  | dataFrame (id : String)
  | factor (codes levels : String)
  | environment (frame : String)
  | bound (frame name : String)

inductive Command
  -- contexts
  | newContext (name : String) (config : Config)
  | dropContext (name : String)
  | shutdown
  | counter
  | describeContext
  | peerCount
  | switch (type : ElemType)
  | flip (type : ElemType)
  | sameContext (id : String)
  | snapshot
  -- making objects
  | newVector (id : String) (type : ElemType) (values : List ElemArg)
  | newList (id : String)
  | withCapacity (id : String) (type : ElemType) (length capacity : Nat)
  | newString (id text : String)
  | naString (id : String)
  | alias (id source : String)
  | drop (id : String)
  /-- Without bytes the buffer is at address zero. -/
  | adopt (id : String) (type : ElemType) (length : Nat) (bytes : Option Bytes)
  -- elements
  | get (id : String) (index : Nat)
  | describeElem (id : String) (index : Nat)
  | getValue (id : String) (type : InlineType) (index : Nat)
  | set (id : String) (index : Nat) (e : ElemArg)
  | toList (id : String)
  | toValues (id : String) (type : InlineType)
  | take (id : String) (index : Nat) (into : String)
  | elemEq (a b : ElemArg)
  | elemInfo (e : ElemArg)
  -- length, promotion, copies
  | setLength (id : String) (length : Nat)
  | setCapacity (id : String) (capacity : Nat)
  | ensurePeer (id : String)
  | promote (id : String)
  | materialize (id : String)
  | copy (id into : String)
  | writable (id into : String)
  | sameObject (id other : String)
  | describe (id : String)
  | applyTrigger (id : String) (trigger : SharingTrigger)
  | markBound (id : String)
  | markShared (id : String)
  | view (id : String)
  -- strings and native memory
  | stringInfo (id : String)
  | nativeText (id : String)
  | bytes (id : String)
  | poke (id : String) (offset : Nat) (bytes : Bytes)
  | pokeHandle (id : String) (offset : Nat) (of : String)
  | foreign (name : String)
  | sameAddress (id other : String)
  -- handles and peers
  | noteHandle (id name : String)
  | lookup (h : HandleArg) (into : Option String)
  | lookupVector (h : HandleArg)
  | peer (h : HandleArg)
  | describePeer (h : HandleArg)
  | release (h : HandleArg)
  | describeHandle (h : HandleArg)
  | site (h : HandleArg)
  | noteAddress (id name : String)
  | handleAt (address : String)
  -- frames and values
  | newFrame (frame : String)
  | cloneFrame (frame into : String)
  | dropFrame (frame : String)
  | assign (frame name : String) (value : ValueArg)
  | insertBinding (frame name : String) (value : ValueArg)
  | binding (frame name : String)
  | removeBinding (frame name : String)
  | frameNames (frame : String)
  | passArgument (value : ValueArg) (constant : Bool)
  | passArguments (arguments : List (ValueArg × Bool))
  | same (a b : ValueArg)
  | value (value : ValueArg)

end VectorHeap
