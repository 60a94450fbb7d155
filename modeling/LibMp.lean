import LibMp.Prog
import LibMp.Linked
import LibMp.Types
import LibMp.Env
import LibMp.Pool
import LibMp.Progress
import LibMp.Post
import LibMp.PeerSync
import LibMp.DescQueue
import LibMp.Api
import LibMp.Machine
import LibMp.Core
import LibMp.CoreSteps
import LibMp.Effects
import LibMp.Simulation
import LibMp.Calls
import LibMp.StreamCalls
import LibMp.Runs
import LibMp.Completion
import LibMp.PostedList
import LibMp.Batch
import LibMp.Tracked
import LibMp.StreamWaits
import LibMp.Returns
import LibMp.WaitOrder
import LibMp.Puts
import LibMp.Comm
import LibMp.EventBatch
import LibMp.WaitAll
import LibMp.Init
import LibMp.Serial
import LibMp.ReadyNet
import LibMp.Ready
import LibMp.Posting
import LibMp.Recorded
import LibMp.TriggerWrites
import LibMp.Trigger
import LibMp.Quiet
import LibMp.FillInv
import LibMp.Fills
import LibMp.CommRuns
import LibMp.Carried
import LibMp.Making
import LibMp.Refused
import LibMp.Windows
import LibMp.Scatter
import LibMp.MemWait
import LibMp.DescRuns
import LibMp.TakenIds
import LibMp.FailedPosts
import LibMp.FailedSends
import LibMp.PostedClients
import LibMp.Regions
import LibMp.IpcCache
import LibMp.Channels
import LibMp.Ring
import LibMp.CommSteps
import LibMp.Kernel
import LibMp.ReadyCalls
import LibMp.ReadyWaits
import LibMp.KernelRuns
import LibMp.Transfers
import LibMp.Capacity
import LibMp.Rounds
import LibMp.Exchange
import LibMp.CommPosts
import LibMp.Pingpong
import LibMp.PingpongCalls
import LibMp.PingpongRuns
import LibMp.PingpongEnds
import LibMp.Collective
import LibMp.Startup
import LibMp.StartupRuns
import LibMp.CommInit
import LibMp.Ledger
import LibMp.Operations
import LibMp.StreamPosts
import LibMp.Asyncpong
import LibMp.AsyncActs
import LibMp.AsyncLane
import LibMp.AsyncCalls
import LibMp.AsyncView
import LibMp.AsyncRuns
import LibMp.AsyncEnds
