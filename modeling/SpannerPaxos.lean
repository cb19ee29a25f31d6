import SpannerPaxos.FiniteMap
import SpannerPaxos.Runs
import SpannerPaxos.TrueTime
import SpannerPaxos.Messages
import SpannerPaxos.WriteAheadLog
import SpannerPaxos.Loops
import SpannerPaxos.HighestAnchor
import SpannerPaxos.Context
import SpannerPaxos.Roles
import SpannerPaxos.Follower
import SpannerPaxos.Leader
import SpannerPaxos.Campaign
import SpannerPaxos.StateMachine
import SpannerPaxos.LeaderSteps
import SpannerPaxos.VoteDecision
import SpannerPaxos.Transitions
import SpannerPaxos.VoteRecord
import SpannerPaxos.VoteQuorum
import SpannerPaxos.Wakeup
import SpannerPaxos.Group
import SpannerPaxos.Tenure
import SpannerPaxos.LogMatching
import SpannerPaxos.MatchSlot
import SpannerPaxos.Ordered
import SpannerPaxos.SafeTime
import SpannerPaxos.SnapshotSafety
import SpannerPaxos.Quorum
import SpannerPaxos.Lease
import SpannerPaxos.LeaseDisjoint
import SpannerPaxos.CommitQuorum
import SpannerPaxos.InOrder
import SpannerPaxos.Reign
import SpannerPaxos.FollowerCommits
import SpannerPaxos.ElectedLeader
import SpannerPaxos.Faults
import SpannerPaxos.Overflow
import SpannerPaxos.Survival
import SpannerPaxos.LeaderStability
import SpannerPaxos.ClientReplies
import SpannerPaxos.Acknowledgement
import SpannerPaxos.ExternalConsistency
import SpannerPaxos.ResponseOrder
import SpannerPaxos.MessageTerms
import SpannerPaxos.PreVoteShield
import SpannerPaxos.LeaseAnchor
import SpannerPaxos.VoteParity
import SpannerPaxos.CommitPoint
import SpannerPaxos.HighestTerm
import SpannerPaxos.MirroredLog
import SpannerPaxos.LogMoves
import SpannerPaxos.LogEnd
import SpannerPaxos.FollowerMoves
import SpannerPaxos.Anchors
import SpannerPaxos.Backtracking
import SpannerPaxos.Reconciliation
import SpannerPaxos.Pipeline
import SpannerPaxos.LogPreference
import SpannerPaxos.Progress
import SpannerPaxos.Codec
import SpannerPaxos.Wire
import SpannerPaxos.AcceptWire
import SpannerPaxos.Heartbeat
import SpannerPaxos.FanOut
import SpannerPaxos.WorkerRunner
import SpannerPaxos.RunnerCalls
import SpannerPaxos.QuorumIntersection
import SpannerPaxos.InFlight
import SpannerPaxos.CampaignBudget
import SpannerPaxos.ColdStart
import SpannerPaxos.TermBound
import SpannerPaxos.Leaderless
import SpannerPaxos.CommitLog
import SpannerPaxos.LogRefinement
import SpannerPaxos.EventLoop
import SpannerPaxos.ClientLedger
import SpannerPaxos.Countdown
import SpannerPaxos.TaskDispatcher
import SpannerPaxos.RpcWire
import SpannerPaxos.WireRange
import SpannerPaxos.LeaseWatcher
import SpannerPaxos.Application
import SpannerPaxos.RunnerTasks
import SpannerPaxos.FollowerLogs
import SpannerPaxos.Availability
