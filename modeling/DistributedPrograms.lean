import DistributedPrograms.Lib.Run
import DistributedPrograms.Raft.Handlers
import DistributedPrograms.Raft.Calls
import DistributedPrograms.Raft.Cluster
import DistributedPrograms.Raft.Steps
import DistributedPrograms.Raft.NodeStep
import DistributedPrograms.Raft.Winner
import DistributedPrograms.Raft.ElectionSafety
import DistributedPrograms.Lib.Prefix
import DistributedPrograms.Raft.LeaderLog
import DistributedPrograms.Raft.LogMatching
import DistributedPrograms.Raft.Rounds
import DistributedPrograms.Raft.CommitRule
import DistributedPrograms.Raft.LeaderCompleteness
import DistributedPrograms.Raft.Acknowledged
import DistributedPrograms.Raft.StateMachineSafety
import DistributedPrograms.Distfs.Attr
import DistributedPrograms.Distfs.Os
import DistributedPrograms.Distfs.RealPath
import DistributedPrograms.Distfs.Containment
import DistributedPrograms.Lib.Cycle
import DistributedPrograms.Ring.Join
import DistributedPrograms.Ring.JoinIntegrity
import DistributedPrograms.Ring.Coordinator
import DistributedPrograms.Ring.Recovery
import DistributedPrograms.Ring.RecoveredRing
import DistributedPrograms.Ring.Membership
import DistributedPrograms.Raft.AppendOnly
import DistributedPrograms.Raft.Persistence
import DistributedPrograms.Lib.Interleaving
import DistributedPrograms.Lib.Locks
import DistributedPrograms.Distfs.Deadlock
import DistributedPrograms.Lib.Evaluation
import DistributedPrograms.Distfs.Client
import DistributedPrograms.Lib.Paging
import DistributedPrograms.Distfs.Listing
import DistributedPrograms.Lib.FileTree
import DistributedPrograms.Distfs.Posix
import DistributedPrograms.Distfs.Changes
import DistributedPrograms.Distfs.Atomicity
import DistributedPrograms.Distfs.ReadBack
import DistributedPrograms.Distfs.Names
import DistributedPrograms.Distfs.ListingLookup
import DistributedPrograms.Distfs.Exclusive
import DistributedPrograms.Distfs.Buffered
import DistributedPrograms.Lib.Wp
import DistributedPrograms.Distfs.Visibility
import DistributedPrograms.Ring.Resignation
import DistributedPrograms.Ring.JoinOrder
import DistributedPrograms.Lib.Simulation
import DistributedPrograms.Ring.FailedJoin
import DistributedPrograms.Raft.VoteRule
import DistributedPrograms.Raft.Replication
import DistributedPrograms.Raft.CommitBound
import DistributedPrograms.Raft.RoundOverlap
import DistributedPrograms.Raft.OneVote
import DistributedPrograms.IpSd.Server
import DistributedPrograms.Raft.Candidacy
import DistributedPrograms.Raft.Heartbeats
import DistributedPrograms.Distfs.PositionedRead
import DistributedPrograms.Distfs.SetAttrTarget
import DistributedPrograms.Ring.Circulation
import DistributedPrograms.Lib.Protocol
import DistributedPrograms.Distfs.Handles
import DistributedPrograms.Ring.Sending
import DistributedPrograms.Ring.PrevRepair
import DistributedPrograms.Distfs.ReadLink
import DistributedPrograms.CRing.Join
import DistributedPrograms.CRing.ConcurrentJoins
import DistributedPrograms.CRing.JoinInvariants
import DistributedPrograms.Raft.LogShape
import DistributedPrograms.Raft.Overflow
import DistributedPrograms.Lib.Collect
import DistributedPrograms.CRing.Rounds
import DistributedPrograms.CRing.Election
import DistributedPrograms.CRing.RoundCost
import DistributedPrograms.CRing.Silence
import DistributedPrograms.Lib.FairMutex
import DistributedPrograms.Distfs.Pool
import DistributedPrograms.Raft.Timeout
import DistributedPrograms.Raft.SplitBrain
import DistributedPrograms.Lib.Broadcast
import DistributedPrograms.CRing.Leave
import DistributedPrograms.CRing.Changes
import DistributedPrograms.CRing.Apart
import DistributedPrograms.Lib.Enclosure
import DistributedPrograms.Distfs.Outside
import DistributedPrograms.Lib.Sweep
import DistributedPrograms.Lib.Budget
import DistributedPrograms.Ring.Crashes
import DistributedPrograms.Ring.SelfHealing
import DistributedPrograms.Ring.LiveCoordinator
import DistributedPrograms.Ring.RoundsEnd
import DistributedPrograms.Lib.Possible
import DistributedPrograms.Raft.Ballot
import DistributedPrograms.Raft.NewTerm
import DistributedPrograms.Raft.CatchUp
import DistributedPrograms.Raft.Progress
