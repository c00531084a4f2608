import YouPipe.State.OrderedWindow
import YouPipe.State.Drain
import YouPipe.Fused.Collect
import YouPipe.Fused.Ranking
import YouPipe.Fused.Reduce
import YouPipe.Handoff.Sharded
import YouPipe.Pool.LostWake
import YouPipe.Pool.Parking
import YouPipe.Pool.Jobs
import YouPipe.Pool.Join
import YouPipe.Pool.JoinInv
import YouPipe.Pool.JoinRuns
import YouPipe.Stream.Admission
import YouPipe.Stream.Settle
import YouPipe.Stream.Pipe
import YouPipe.Graph.Delivery
import YouPipe.Pool.Liveness
import YouPipe.Graph.Validation
import YouPipe.Fused.Partition
import YouPipe.Fused.Depth
import YouPipe.State.Repeats
import YouPipe.Handoff.Batch
import YouPipe.Stream.Outputs
import YouPipe.Graph.Broadcast
import YouPipe.Fused.FilterCollect
import YouPipe.Graph.Arithmetic
import YouPipe.Stream.Fence
import YouPipe.Graph.FairClaim
import YouPipe.Graph.FairClaimRuns
import YouPipe.Graph.Completion
import YouPipe.Pool.WakeScan
import YouPipe.Fused.CountLatch
import YouPipe.Pool.Cache
import YouPipe.Fused.PureApply
import YouPipe.State.Growth
import YouPipe.Stream.Terminal
import YouPipe.Core.Laps
import YouPipe.Core.Window
import YouPipe.Core.Deques
import YouPipe.Core.Places
import YouPipe.Core.Fifo
import YouPipe.Queue.ArrayQueue
import YouPipe.Queue.ArrayQueueMpsc
import YouPipe.Queue.MpscHint
import YouPipe.Queue.Lifo
import YouPipe.Queue.LifoInv
import YouPipe.Queue.LifoSteps
import YouPipe.Queue.LifoRuns
import YouPipe.Queue.LifoProgress
