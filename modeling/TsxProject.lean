import TsxProject.Queues.SyncFifo
import TsxProject.Queues.SimpleQueue
import TsxProject.VectorMatrix.Handshake
import TsxProject.VectorMatrix.Detection
import TsxProject.VectorMatrix.Volatiles
import TsxProject.VectorMatrix.Leftovers
import TsxProject.VectorMatrix.Progress
import TsxProject.VectorMatrix.Lockstep
import TsxProject.Queues.SectionFifo
import TsxProject.Queues.SectionHandOver
import TsxProject.HyperThreads.CheckFrequencies
import TsxProject.HyperThreads.SectionVerdict
import TsxProject.HyperThreads.PingPong
import TsxProject.VectorMatrix.Checksum
import TsxProject.Tsx.RetryBudget
import TsxProject.Tsx.Recovery
import TsxProject.Tsx.Atomicity
import TsxProject.Tsx.AtomicOps
import TsxProject.Tsx.Meeting
import TsxProject.Replication.Mismatch
import TsxProject.Replication.Retry
import TsxProject.Replication.BarrierSync
import TsxProject.Replication.Finish
import TsxProject.Tsx.AtomicCounters
import TsxProject.Tsx.LostUpdates
import TsxProject.Tsx.AtomicTotals
import TsxProject.CoreAffinity
import TsxProject.VectorMatrix.Outcome
import TsxProject.VectorMatrix.Waiting
import TsxProject.Allocation
import TsxProject.Replication.Wakeups
import TsxProject.Replication.Overtaken
