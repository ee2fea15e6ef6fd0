import ByteIndex.Boundary.Call
import ByteIndex.Proofs.CursorOwnership
import ByteIndex.SortedMap.Footprint
import ByteIndex.Traversal
import ByteIndex.Walk
import ByteIndex.Proofs.WalkSafety
import ByteIndex.Proofs.WalkByIndex
import ByteIndex.Proofs.PassCompleteness
import ByteIndex.Proofs.TraversalViews
import ByteIndex.Proofs.KeyOrder
import ByteIndex.Proofs.KeyComparison
import ByteIndex.Proofs.SortedEntries
import ByteIndex.SortedMap.Edit
import ByteIndex.Proofs.Dictionary
import ByteIndex.Proofs.CallSimulation
import ByteIndex.Proofs.Atomicity
import ByteIndex.Proofs.CallVariables
import ByteIndex.Proofs.RunningCounters
import ByteIndex.Proofs.RequestFrame
import ByteIndex.Proofs.LedgerBalance
import ByteIndex.Proofs.SlotAccounting
import ByteIndex.Proofs.KeyLimit
import ByteIndex.Proofs.EventLog
import ByteIndex.Proofs.ClientSeparation
import ByteIndex.Proofs.HandleChurn
import ByteIndex.Proofs.MapDescription
import ByteIndex.Proofs.ErrorMessage
import ByteIndex.Proofs.SlotHandles
