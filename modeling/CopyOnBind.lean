import CopyOnBind.Script.Run
import CopyOnBind.Kernel.Run
import CopyOnBind.Store.Lemmas
import CopyOnBind.Proofs.Walks
import CopyOnBind.Proofs.Graph
import CopyOnBind.Proofs.Content
import CopyOnBind.Proofs.WellFormed
import CopyOnBind.Proofs.Snapshot
import CopyOnBind.Proofs.Cycles
import CopyOnBind.Proofs.Isolation
import CopyOnBind.Proofs.Places
import CopyOnBind.Proofs.Tidy
import CopyOnBind.Proofs.Worlds
import CopyOnBind.Proofs.TidyRuns
import CopyOnBind.Proofs.ValueSemantics
import CopyOnBind.Proofs.Plain
import CopyOnBind.Proofs.Ready
import CopyOnBind.Proofs.Linked
import CopyOnBind.Proofs.Reads
import CopyOnBind.Proofs.TwoRuns
import CopyOnBind.Proofs.Mirrored
import CopyOnBind.Proofs.Elision
import CopyOnBind.Proofs.History
import CopyOnBind.Proofs.Slots
import CopyOnBind.Proofs.Signals
import CopyOnBind.Proofs.Ownership
import CopyOnBind.Proofs.Regions
import CopyOnBind.Proofs.Confinement
import CopyOnBind.Proofs.Laws
import CopyOnBind.Proofs.CallDepth
import CopyOnBind.Proofs.Marks
import CopyOnBind.Proofs.Termination
import CopyOnBind.Proofs.FiniteMap
import CopyOnBind.Proofs.Returns
import CopyOnBind.Proofs.Names
import CopyOnBind.Proofs.Atomicity
import CopyOnBind.Proofs.Arguments
import CopyOnBind.Proofs.Parameters
import CopyOnBind.Proofs.Calls
import CopyOnBind.Proofs.Equality
import CopyOnBind.Proofs.Faithful
import CopyOnBind.Proofs.KeyOrder
import CopyOnBind.Proofs.Telling
import CopyOnBind.Proofs.Unambiguous
import CopyOnBind.Proofs.Loops
import CopyOnBind.Proofs.FromPairs
import CopyOnBind.Proofs.Printing
import CopyOnBind.Proofs.Canonical
import CopyOnBind.Proofs.Numerals
import CopyOnBind.Proofs.Rounding
import CopyOnBind.Proofs.FloatText
import CopyOnBind.Proofs.Settings
