import KernelMemory.Arena
import KernelMemory.Concurrency.Interleaving
import KernelMemory.Concurrency.Contention
import KernelMemory.Concurrency.Initialization
import KernelMemory.Concurrency.Interrupts
import KernelMemory.Extent.Audit
import KernelMemory.Extent.Linked
import KernelMemory.Index.Audit
import KernelMemory.Index.Cursor
import KernelMemory.Index.Outline
import KernelMemory.Index.Linked
import KernelMemory.Manager.Kernel
import KernelMemory.Memory.Basic
import KernelMemory.Word
import KernelMemory.Pool.Allocation
import KernelMemory.Pool.Header
import KernelMemory.Pool.Layout
import KernelMemory.Pool.Tally
import KernelMemory.Proofs.Index.Sound
import KernelMemory.Proofs.Index.Refinement
import KernelMemory.Proofs.Linked.Structure
import KernelMemory.Space.Gather
import KernelMemory.Text.Printable
import KernelMemory.Proofs.Extent.Listing
import KernelMemory.Proofs.Extent.Sound
import KernelMemory.Proofs.Extent.Address
import KernelMemory.Proofs.Extent.Merge
import KernelMemory.Proofs.Extent.Reclaim
import KernelMemory.Proofs.Extent.Mutation
import KernelMemory.Proofs.Extent.Single
import KernelMemory.Proofs.Extent.Retyping
import KernelMemory.Proofs.Checks
import KernelMemory.Proofs.Extent.Audit
import KernelMemory.Proofs.Extent.Partition
import KernelMemory.Proofs.Extent.Search
import KernelMemory.Proofs.Page
import KernelMemory.Proofs.Space.Paged
import KernelMemory.Proofs.Space.Calls
import KernelMemory.Proofs.Space.Gather
import KernelMemory.Proofs.Space.Ledger
import KernelMemory.Proofs.Space.Plan
import KernelMemory.Proofs.Pool.Header
import KernelMemory.Proofs.Pool.Thread
import KernelMemory.Proofs.Pool.Splice
import KernelMemory.Proofs.Pool.Audit
import KernelMemory.Proofs.Pool.Tally
import KernelMemory.Proofs.Pool.Heap
import KernelMemory.Proofs.Pool.Allocation
import KernelMemory.Proofs.Pool.Calls
import KernelMemory.Proofs.Pool.Ledger
import KernelMemory.Proofs.Pool.Clean
import KernelMemory.Proofs.Pool.History
import KernelMemory.Proofs.Manager.Refusal
import KernelMemory.Proofs.Space.Release
import KernelMemory.Proofs.Manager.Granularity
import KernelMemory.Proofs.Extent.Remembrance
import KernelMemory.Proofs.Pool.Frame
import KernelMemory.Proofs.Pool.Guard
import KernelMemory.Proofs.Pool.Damage
import KernelMemory.Proofs.Pool.Residue
import KernelMemory.Proofs.Index.Map
import KernelMemory.Proofs.Agreement
import KernelMemory.Proofs.Extent.Links
import KernelMemory.Proofs.Extent.Mirror
import KernelMemory.Proofs.Extent.Lockstep
import KernelMemory.Proofs.Extent.Classes
import KernelMemory.Proofs.Extent.RoundTrip
import KernelMemory.Proofs.Index.History
import KernelMemory.Proofs.Linked.Handles
import KernelMemory.Proofs.Linked.Refinement
import KernelMemory.Proofs.Linked.Seeking
import KernelMemory.Proofs.Linked.Traversal
import KernelMemory.Proofs.Space.Safety
import KernelMemory.Proofs.Extent.Defects
import KernelMemory.Proofs.Pool.WellFormed
import KernelMemory.Proofs.Pool.Totality
import KernelMemory.Proofs.Pool.FirstFit
import KernelMemory.Proofs.Pool.Liveness
import KernelMemory.Proofs.Manager.Exclusion
import KernelMemory.Proofs.Extent.Commutation
import KernelMemory.Proofs.Extent.Runs
import KernelMemory.Proofs.Extent.Survival
import KernelMemory.Proofs.Space.Placement
import KernelMemory.Proofs.Space.Threshold
import KernelMemory.Proofs.Space.Freeing
import KernelMemory.Proofs.Space.Reservation
import KernelMemory.Proofs.Space.Empty
import KernelMemory.Proofs.Space.Largest
import KernelMemory.Proofs.Concurrency.Interleaving
import KernelMemory.Proofs.Concurrency.Exclusion
import KernelMemory.Proofs.Concurrency.Once
import KernelMemory.Proofs.Tree.Growth
import KernelMemory.Proofs.Linked.Records
import KernelMemory.Proofs.Linked.Rising
import KernelMemory.Proofs.Linked.Growth
import KernelMemory.Proofs.Linked.Height
