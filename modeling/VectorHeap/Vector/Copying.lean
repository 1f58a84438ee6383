import VectorHeap.Vector.Promotion

/-! Sharing states and copies. -/
namespace VectorHeap.Op

def setSharing (v : VectorId) (f : SharingState → SharingState) : Op SharingState := do
  let cell ← vector v
  modify (·.modifyVector v (fun cell => { cell with sharing := f cell.sharing }))
  return f cell.sharing

def applyTrigger (v : VectorId) (t : SharingTrigger) : Op SharingState := setSharing v (·.after t)

def markBound (v : VectorId) : Op Unit := discard (setSharing v (·.markBound))

def markShared (v : VectorId) : Op Unit := discard (setSharing v (fun _ => .shared))

def markAllShared : List Elem → Op Unit
  | [] => pure ()
  | .list v :: rest => do
    markShared v
    markAllShared rest
  | _ :: rest => markAllShared rest

def loadNatives (cell : VectorCell) (p : PeerId) (i : Nat) : Nat → Op (List Elem)
  | 0 => return []
  | n + 1 => do
    let e ← loadNative cell p i
    return e :: (← loadNatives cell p (i + 1) n)

def usedBuffer (cell : VectorCell) : Op Buffer := do
  match ← managed? cell with
  | some b => ofPanic (b.take? cell.length)
  | none => bufferOf cell.type (← loadNatives cell (← nativePeer cell) 0 cell.length)

/-- A fresh temporary vector with the same elements in managed memory. The elements of a copied list
become shared between both lists. -/
def copy (v : VectorId) : Op VectorId := do
  let cell ← vector v
  let b ← usedBuffer cell
  markAllShared b.slots
  newVector cell.context b

/-- A vector that may be written in place: this one, or a copy if it is shared. -/
def writable (v : VectorId) : Op VectorId := do
  if (← vector v).sharing.isShared then copy v else return v

end VectorHeap.Op
