import VectorHeap.CommandLine.Usage
import VectorHeap.Heap.Frames
import VectorHeap.Heap.Inspection

/-! What the command line does: the scenarios of sharing and promotion, the churn of short-lived
promoted vectors, and the snapshot of a context. -/
namespace VectorHeap.CommandLine

structure Output where
  exitCode : Nat
  text : String
deriving DecidableEq

/-! ### Snapshots as text -/

def quotedField (name value : String) : String := "\"" ++ name ++ "\": " ++ value

def indented (indent : String) (fields : List String) : String :=
  "\x7b\n" ++ String.intercalate ",\n" (fields.map (fun f => indent ++ "  " ++ f)) ++ "\n" ++
    indent ++ "\x7d"

def switchFields (switches : List (ElemType × Bool)) : List String :=
  switches.map (fun (type, promoted) =>
    quotedField type.name ("\"" ++ Switches.display promoted ++ "\""))

def snapshotText (s : Snapshot) : String :=
  indented ""
    [quotedField "mirrors" (toString s.peers),
      quotedField "registered" (toString s.registered),
      quotedField "pending" (toString s.pending),
      quotedField "released" (toString s.released),
      quotedField "live_bytes" (toString s.liveBytes),
      quotedField "handle_counter" (toString s.counter.toNat),
      quotedField "address_index" (if s.addressIndex then "true" else "false"),
      quotedField "switches" (indented "  " (switchFields s.switches))] ++ "\n"

/-! ### Scenarios -/

def intsText (vs : List Int32) : String :=
  "[" ++ String.intercalate ", " (vs.map (fun v => toString v.toInt)) ++ "]"

def sharingName (v : VectorId) : Op String := return (← Op.vector v).sharing.name

def ints (vs : List Int32) : Buffer := .ofValues .int vs

def assignmentScenario (c : ContextId) : Op String := do
  let f ← Op.newFrame
  let v ← Op.newVector c (.ofValues .double [Double.ofNat 1, Double.ofNat 2, Double.ofNat 3])
  let initial ← sharingName v
  discard (Op.assign f "x" (.vector v))
  let afterX ← sharingName v
  match ← Op.binding? f "x" with
  | some x => discard (Op.assign f "y" x)
  | none => pure ()
  let afterY ← sharingName v
  return s!"A: {initial} -> x: {afterX} -> y: {afterY}\n"

def promotionScenario (showAddress : Address → String) (c : ContextId) : Op String := do
  let v ← Op.newVector c (ints [10, 20, 30, 40, 50])
  let before ← Op.toValues v .int
  let handle ← Op.promote v
  let after ← Op.toValues v .int
  let address := (← get).dataAddress (.vector v)
  return "B: " ++ intsText before ++ " -> " ++ intsText after ++
    s!" (handle {handle.display}, address " ++ showAddress address ++ ")\n"

def callScenario (c : ContextId) : Op String := do
  let f ← Op.newFrame
  let v ← Op.newVector c (ints [1, 2, 3])
  discard (Op.assign f "x" (.vector v))
  let owned ← sharingName v
  match ← Op.binding? f "x" with
  | some x => Op.passArguments [{ value := x }]
  | none => pure ()
  let passed ← sharingName v
  return s!"C: {owned} -> call -> {passed}\n"

def scenarios (showAddress : Address → String) (c : ContextId) : Op String := do
  let a ← assignmentScenario c
  let b ← promotionScenario showAddress c
  let d ← callScenario c
  return a ++ b ++ d

/-! ### Churn -/

def churnTurn (c : ContextId) (length i : Nat) : Op Unit := do
  if Buffer.maxBytes < length * ElemType.double.managedWidth then Op.halt .capacityOverflow
  let v ← Op.newVector c (.ofValues .double (List.replicate length (Double.ofNat i)))
  discard (Op.promote v)

def workTurns (c : ContextId) : Nat → Heap → Heap
  | 0, h => h
  | n + 1, h => workTurns c n ((h.work c).collect [.context c])

def churnFrom (c : ContextId) (length : Nat) (pace : Nat → Nat) : Nat → Nat → Op Unit
  | _, 0 => pure ()
  | i, n + 1 => do
    churnTurn c length i
    modify (fun h => workTurns c (pace i) (h.collect [.context c]))
    churnFrom c length pace (i + 1) n

def lastSecond : Nat := 0x7FFFFFFFFFFFFFFF

/-- Waits for the worker, which gets so many turns meanwhile. Tells whether nothing is pending. -/
def waitIdle (c : ContextId) : Nat → Op Bool
  | 0 => return decide ((← Op.context c).reclaimer.pending = 0)
  | n + 1 => do
    if (← Op.context c).reclaimer.pending = 0 then return true
    modify (workTurns c 1)
    waitIdle c n

/-- What the program runs on. -/
structure Host where
  supply : Nat → Nat → Option Address := ({} : Heap).supply
  /-- The turns of the worker after each turn of a churn. -/
  between : Nat → Nat := fun _ => 1
  /-- The turns of the worker in so many seconds. -/
  within : Nat → Nat := fun _ => 0

/-- Churns, waits, and takes a snapshot, whether or not anything is still pending. -/
def churn (c : ContextId) (options : ChurnOptions) (clock : Nat) (host : Host) : Op (Bool × Snapshot) := do
  churnFrom c options.length host.between 0 options.count
  if lastSecond < clock + options.wait then Op.halt .deadlineOverflow
  let idle ← waitIdle c (host.within options.wait)
  return (idle, (← Op.context c).snapshot)

/-! ### Requests -/

def inContext (config : Config) (op : ContextId → Op String) (host : Host) : Output :=
  let run : Op String := do op (← Op.addContext (.ofConfig config))
  match run { supply := host.supply } with
  | .ok text _ => ⟨0, text⟩
  | .error (.panic _) _ => ⟨101, ""⟩
  | .error _ _ => ⟨1, ""⟩

/-- Carries out a request. The clock shows how many seconds have passed when it is asked. -/
def perform (showAddress : Address → String) (clock : Nat) (names : List String) (i : Invocation)
    (host : Host := {}) : Output :=
  let environment := Config.ofEnvironment names
  let config := if i.addressIndex then environment.set (.addressIndex true) else environment
  match i.request with
  | .version => ⟨0, versionText⟩
  | .help topic => ⟨0, helpText topic⟩
  | .scenarios => inContext config (scenarios showAddress) host
  | .churn options =>
    inContext config (fun c => return snapshotText (← churn c options clock host).2) host
  -- the shared context knows nothing of the command line
  | .inspect => inContext environment (fun c => return snapshotText (← Op.context c).snapshot) host

def run (showAddress : Address → String) (clock : Nat) (names arguments : List String)
    (host : Host := {}) : Output :=
  match parse? false arguments with
  | some i => perform showAddress clock names i host
  | none => ⟨2, ""⟩

end VectorHeap.CommandLine
