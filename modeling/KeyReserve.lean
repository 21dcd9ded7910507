import KeyReserve.Main
import KeyReserve.Node.Sending
import KeyReserve.Node.Timers
import KeyReserve.LazyAgenda
import KeyReserve.Proofs.Flow
import KeyReserve.Proofs.Payment
import KeyReserve.Proofs.Outcome
import KeyReserve.Proofs.Candidates
import KeyReserve.Proofs.Calls
import KeyReserve.Proofs.Lifecycle
import KeyReserve.Proofs.Run
import KeyReserve.Proofs.KeyLedger
import KeyReserve.Proofs.PacketLedger
import KeyReserve.Proofs.SendOutcome
import KeyReserve.Proofs.ChargingCourse
import KeyReserve.Proofs.Clock
import KeyReserve.Proofs.RoundTimers
import KeyReserve.Proofs.PacketTimers
import KeyReserve.Proofs.Reserve
import KeyReserve.Proofs.Record
import KeyReserve.Proofs.RecordRuns
import KeyReserve.Proofs.SessionRecord
import KeyReserve.Proofs.ChargingRecord
import KeyReserve.Proofs.LevelRecord
import KeyReserve.Proofs.Watch
import KeyReserve.Proofs.NodeWatch
import KeyReserve.Proofs.Turns
import KeyReserve.Proofs.Deadlines
import KeyReserve.Proofs.QueueOrder
import KeyReserve.Proofs.Supply
import KeyReserve.Proofs.NodeSupply
import KeyReserve.Proofs.SupplyCalls
import KeyReserve.Proofs.IdleLinks
import KeyReserve.Proofs.Holdings
import KeyReserve.Proofs.TimerOwners
import KeyReserve.Proofs.DelayBounds
import KeyReserve.Proofs.Failures
import KeyReserve.Proofs.Numbering
import KeyReserve.Proofs.Teardown
import KeyReserve.Proofs.Stopped
import KeyReserve.Proofs.ExpiredRoutes
import KeyReserve.Proofs.PendingSet
import KeyReserve.Proofs.LazyCancel
import KeyReserve.Proofs.Outlook
import KeyReserve.Proofs.OutlookSteps
import KeyReserve.Proofs.Checks
import KeyReserve.Proofs.Native
import KeyReserve.Proofs.NativeRoutes
import KeyReserve.Proofs.Advertisements
import KeyReserve.Proofs.BareText
import KeyReserve.Proofs.BlockLayout
import KeyReserve.Proofs.ReadBack
import KeyReserve.Proofs.ConfigText
import KeyReserve.Proofs.Cascade
import KeyReserve.Proofs.ConfigCheck
import KeyReserve.Proofs.ChargingRounds
import KeyReserve.Proofs.ExactPrice
import KeyReserve.Proofs.RouteTables
import KeyReserve.Proofs.NativeOrder
import KeyReserve.Proofs.Ranking
import KeyReserve.Proofs.GradeOrder
import KeyReserve.Proofs.DueTimers
import KeyReserve.Proofs.Epochs
import KeyReserve.Proofs.Verdicts
import KeyReserve.Proofs.FirstExpiry
import KeyReserve.Proofs.StreamIndices
import KeyReserve.Proofs.Neighbors
import KeyReserve.Proofs.StoredRoutes
