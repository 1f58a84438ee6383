import VectorHeap.ElemType.Position
import VectorHeap.Main
import VectorHeap.Native.StringArray
import VectorHeap.Proofs.Refinement
import VectorHeap.Proofs.Release
import VectorHeap.Proofs.Representation
import VectorHeap.Session.Buffers
import VectorHeap.Session.Reclamation
import VectorHeap.Proofs.Ledger
import VectorHeap.Proofs.ValueSemantics
import VectorHeap.Proofs.Statements
import VectorHeap.Proofs.LiveBytes
import VectorHeap.Proofs.Lookup
import VectorHeap.Proofs.ReadBack
import VectorHeap.Proofs.Protocol
import VectorHeap.Proofs.Reclamation
import VectorHeap.Proofs.Switching
import VectorHeap.Proofs.Bindings
import VectorHeap.Proofs.Completeness
import VectorHeap.Proofs.Nesting
import VectorHeap.Proofs.Isolation
import VectorHeap.Proofs.HandleSequence
import VectorHeap.Proofs.Indexing
import VectorHeap.Proofs.Heap.Backings
import VectorHeap.Proofs.DataAddress
import VectorHeap.Proofs.Parties
import VectorHeap.Proofs.Atomicity
import VectorHeap.Proofs.FailedWrites
import VectorHeap.Proofs.NativeSizes
import VectorHeap.Proofs.Refusals
import VectorHeap.Proofs.ReadPaths
import VectorHeap.Proofs.StringArrays
import VectorHeap.Proofs.ForeignMemory
import VectorHeap.Proofs.Extraction
import VectorHeap.Proofs.Native.RoundTrip
import VectorHeap.Proofs.Passing
import VectorHeap.Proofs.Equality
import VectorHeap.Proofs.Heap.Collection
import VectorHeap.Proofs.Interleaving
import VectorHeap.Proofs.Loops
import VectorHeap.Proofs.Scalar.Complex
import VectorHeap.Proofs.SpareSlots
