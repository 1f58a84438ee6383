import VectorHeap.Config
import VectorHeap.Fault
import VectorHeap.Peer

/-! The registry of a context: which peer a handle names.
Two more tables serve debugging and exist only when the configuration asks for them: the handle of
each owned block by its address, and where each peer came from. The registry also draws the handles
and counts the bytes of the owned blocks. -/
namespace VectorHeap

structure Registry where
  peers : Table Handle PeerId
  byAddress : Option (Table Address Handle)
  sites : Option (Table Handle String)
  counter : UInt64
  stride : UInt64
  registered : Nat
  liveBytes : Nat
deriving Inhabited

namespace Registry

def ofConfig (c : Config) : Registry where
  peers := .empty
  byAddress := if c.addressIndex then some .empty else none
  sites := if c.traceSites then some .empty else none
  counter := c.handles.normalize.base
  stride := c.handles.normalize.stride
  registered := 0
  liveBytes := 0

def nextHandle (r : Registry) : Handle := ⟨r.counter⟩

def draw (r : Registry) : Registry := { r with counter := r.counter + r.stride }

/-- The entry of a handle is replaced if there is one. -/
def enter (r : Registry) (h : Handle) (p : PeerId) (site : String) : Registry :=
  { r with peers := r.peers.insert h p, sites := r.sites.map (·.insert h site) }

def countRegistered (r : Registry) : Registry := { r with registered := r.registered + 1 }

def peer? (r : Registry) (h : Handle) : Option PeerId := r.peers.find? h

def delist (r : Registry) (h : Handle) : Registry := { r with peers := r.peers.erase h }

def forgetSite (r : Registry) (h : Handle) : Registry := { r with sites := r.sites.map (·.erase h) }

/-- The entry of a handle goes only while it still is that of the given peer. -/
def remove (r : Registry) (h : Handle) (p : PeerId) : Registry :=
  if r.peers.find? h = some p then (r.delist h).forgetSite h else r

def addContents (r : Registry) (h : Handle) : Backing → Registry
  | .owned address bytes =>
    { r with
      byAddress := r.byAddress.map (·.insert address h)
      liveBytes := r.liveBytes + bytes.length }
  | _ => r

/-- The entry at the address of a block goes, whosever it is. -/
def unindex (r : Registry) : Backing → Registry
  | .owned address _ => { r with byAddress := r.byAddress.map (·.erase address) }
  | _ => r

def noteFreed (r : Registry) (b : Backing) : Registry :=
  { r with liveBytes := r.liveBytes - b.ownedBytes }

def dropContents (r : Registry) (b : Backing) : Registry := (r.unindex b).noteFreed b

def handleAt? (r : Registry) (address : Address) : Option Handle :=
  r.byAddress.bind (·.find? address)

def site? (r : Registry) (h : Handle) : Option String := r.sites.bind (·.find? h)

def invalidHandle (r : Registry) (h : Handle) : Error := .invalidHandle h r.counter (r.site? h)

end Registry
end VectorHeap
