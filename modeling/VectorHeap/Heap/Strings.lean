import VectorHeap.Heap.Contents
import VectorHeap.Text.Utf8

/-! Strings: making them, a context's NA string, and native copies of their text. -/
namespace VectorHeap.Op

def newString (c : ContextId) (text : String) : Op StringId := addString { context := c, text }

/-- The one missing string of a context, made when first needed and kept from then on. -/
def naString (c : ContextId) : Op StringId := do
  let ctx ← context c
  match ctx.naString with
  | some s => return s
  | none =>
    let s ← addString { context := c, text := "NA", isNA := true }
    modify (·.modifyContext c (fun ctx => { ctx with naString := some s }))
    return s

/-- Copies the text, ended by a zero byte, into a block of its own unless that was done before.
Answers its address. -/
def materialize (s : StringId) : Op Address := do
  let cell ← string s
  let p ← ensureStringPeer s
  let old ← peer p
  unless old.backing.isAllocated do
    let bytes := Utf8.encode cell.text
    let backing ← ownBlock bytes (bytes.length + 1) none
    install cell.context p backing bytes.length bytes.length []
  return (← peer p).backing.address

end VectorHeap.Op
