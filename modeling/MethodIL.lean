import MethodIL.Revision
import MethodIL.Tree.Listing
import MethodIL.Proofs.Layout.Offsets
import MethodIL.Proofs.Layout.LeastForms
import MethodIL.Proofs.Body.Offsets
import MethodIL.Proofs.Body.Ranges
import MethodIL.Proofs.Lowering.Emission
import MethodIL.Proofs.Lowering.MinimalForms
import MethodIL.Proofs.Tree.Lookup
import MethodIL.Proofs.Tree.WellFormed
import MethodIL.Proofs.Tree.FlatOrder
import MethodIL.Proofs.Tree.Chains
import MethodIL.Proofs.Tree.Linkage
import MethodIL.Proofs.Tree.Links
import MethodIL.Proofs.Tree.Moves
import MethodIL.Proofs.Tree.Changes
import MethodIL.Proofs.Lifting.Steps
import MethodIL.Proofs.Tree.Reachable
import MethodIL.Proofs.Stack.Machine
import MethodIL.Proofs.Stack.Settled
import MethodIL.Proofs.Stack.Consistent
import MethodIL.Proofs.Stack.Work
import MethodIL.Proofs.Stack.Exact
import MethodIL.Proofs.Lowering.Places
import MethodIL.Proofs.Lowering.Clauses
import MethodIL.Proofs.Body.Machine
import MethodIL.Proofs.Lowering.Correspondence
import MethodIL.Proofs.Stack.Simulation
import MethodIL.Proofs.Journal
import MethodIL.Proofs.Lowering.Coverage
import MethodIL.Proofs.Lifting.CodeMap
import MethodIL.Proofs.Tree.Raising
import MethodIL.Proofs.Lifting.Regions
import MethodIL.Proofs.Lifting.Clauses
import MethodIL.Proofs.Body.Agreement
import MethodIL.Proofs.Lifting.Labels
import MethodIL.Proofs.Lowering.AgreeingForms
import MethodIL.Proofs.Lowering.Presented
import MethodIL.Proofs.Lowering.RoundTrip
import MethodIL.Proofs.Lowering.Extents
import MethodIL.Proofs.Lowering.Protections
import MethodIL.Proofs.Lowering.Completion
import MethodIL.Proofs.Lowering.Faithful
import MethodIL.Proofs.Lifting.Rebuilt
import MethodIL.Proofs.Lowering.ClauseOrder
import MethodIL.Proofs.Lowering.Settled
import MethodIL.Proofs.Tree.Stages
import MethodIL.Proofs.Tree.Ownership
import MethodIL.Proofs.Tree.Binding
import MethodIL.Proofs.Tree.RegionLinks
import MethodIL.Proofs.Tree.RegionRemoval
import MethodIL.Proofs.Bytes.Reads
import MethodIL.Proofs.Instruction.Decoding
import MethodIL.Proofs.Body.ReadBack
import MethodIL.Proofs.Bytes.Takes
import MethodIL.Proofs.Instruction.Canonical
import MethodIL.Proofs.Store.Basic
import MethodIL.Proofs.Store.Work
import MethodIL.Proofs.Store.Edits
import MethodIL.Proofs.Store.Placing
import MethodIL.Proofs.Store.Operands
import MethodIL.Proofs.Store.Refusal
import MethodIL.Proofs.Store.Histories
import MethodIL.Proofs.Lowering.Capacity
import MethodIL.Proofs.Lowering.Obstacles
import MethodIL.Proofs.Lowering.Checked
import MethodIL.Proofs.Lowering.Failing
import MethodIL.Proofs.Lifting.Wrapping
import MethodIL.Proofs.Lifting.Acceptance
import MethodIL.Proofs.Tree.Runs
import MethodIL.Proofs.Lifting.Aiming
import MethodIL.Proofs.Lifting.Refusal
import MethodIL.Proofs.Lifting.SharedHandlers
import MethodIL.Proofs.Lifting.TableOrder
import MethodIL.Proofs.Lowering.Overlaps
import MethodIL.Proofs.Lowering.EmittedHandlers
import MethodIL.Proofs.Tree.Traversals
import MethodIL.Proofs.Tree.OneOrder
import MethodIL.Proofs.Tree.Unbinding
import MethodIL.Proofs.Tree.BlockRemoval
import MethodIL.Proofs.Tree.Retargeting
import MethodIL.Proofs.Store.ChildLists
import MethodIL.Proofs.Tree.Landing
import MethodIL.Proofs.Tree.Regrouping
import MethodIL.Proofs.Lowering.Regrouping
import MethodIL.Proofs.Stack.Regrouping
import MethodIL.Proofs.Stack.Overflow
import MethodIL.Proofs.Stack.Stepwise
import MethodIL.Proofs.Stack.Ending
import MethodIL.Proofs.Bytes.Extension
import MethodIL.Proofs.Bytes.Progress
import MethodIL.Proofs.Bytes.Bare
import MethodIL.Proofs.Instruction.Streams
import MethodIL.Proofs.Body.Sections
import MethodIL.Proofs.Body.Bare
import MethodIL.Proofs.Body.Totality
