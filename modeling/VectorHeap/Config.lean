import VectorHeap.Handle

/-! Configuration of a context: two debugging tables, the handle sequence and the name of the
reclamation worker. -/
namespace VectorHeap

def addressIndexVariable : String := "RVEC_NATIVE_INSPECTOR"

def traceSitesVariable : String := "RVEC_TRACE_MIRRORS"

structure Config where
  addressIndex : Bool := false
  traceSites : Bool := false
  handles : HandleSequence := .standard
  workerName : String := "native-reference-queue-worker"
deriving DecidableEq, Inhabited

inductive Setting
  | addressIndex (on : Bool)
  | traceSites (on : Bool)
  /-- A sequence in normal form. -/
  | handles (s : HandleSequence)
  /-- A sequence as given; contexts normalise it when they draw from it. -/
  | rawHandles (s : HandleSequence)
  | workerName (name : String)
  | environment (names : List String)

namespace Config

def default : Config := {}

def ofEnvironment (names : List String) : Config :=
  { addressIndex := names.contains addressIndexVariable,
    traceSites := names.contains traceSitesVariable }

def set (c : Config) : Setting → Config
  | .addressIndex on => { c with addressIndex := on }
  | .traceSites on => { c with traceSites := on }
  | .handles s => { c with handles := s.normalize }
  | .rawHandles s => { c with handles := s }
  | .workerName name => { c with workerName := name }
  | .environment names => ofEnvironment names

def build (settings : List Setting) : Config := settings.foldl set default

end Config
end VectorHeap
