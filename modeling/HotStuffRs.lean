import HotStuffRs.BlockTree.ReadBack
import HotStuffRs.Replica.Run
import HotStuffRs.BlockTree.WellFormed
import HotStuffRs.BlockTree.Branch
import HotStuffRs.BlockTree.Commit
import HotStuffRs.BlockTree.CommitEach
import HotStuffRs.BlockTree.SigningSet
import HotStuffRs.Replica.Lock
import HotStuffRs.HotStuff.Collect
import HotStuffRs.HotStuff.Pair
import HotStuffRs.HotStuff.PairUpdate
import HotStuffRs.Networking.SignedMessages
import HotStuffRs.Types.Uniqueness
import HotStuffRs.BlockTree.AppView
import HotStuffRs.BlockTree.Safe
import HotStuffRs.Replica.Invariant
import HotStuffRs.Replica.Preserved
import HotStuffRs.Replica.Under
import HotStuffRs.HotStuff.Sound
import HotStuffRs.Replica.Authentic
import HotStuffRs.Replica.ForeignChain
import HotStuffRs.BlockTree.CommittedUpdates
import HotStuffRs.Replica.NetworkUpdates
import HotStuffRs.BlockTree.Immediacy
import HotStuffRs.Replica.Immediacy
import HotStuffRs.Replica.Heights
import HotStuffRs.Replica.Repropose
import HotStuffRs.Replica.Votes
import HotStuffRs.BlockTree.CommittedChain
import HotStuffRs.Replica.AppendOnly
import HotStuffRs.BlockSync.Blacklist
import HotStuffRs.Networking.Accounting
import HotStuffRs.Networking.Delivery
import HotStuffRs.Pacemaker.Deadlines
import HotStuffRs.Pacemaker.AdvanceView
import HotStuffRs.Replica.EpochChange
import HotStuffRs.BlockTree.Children
import HotStuffRs.BlockTree.References
import HotStuffRs.Replica.Children
import HotStuffRs.Replica.References
import HotStuffRs.BlockSync.Server
import HotStuffRs.Replica.SyncServer
import HotStuffRs.BlockTree.KeyPaths
import HotStuffRs.HotStuff.LeaderSelection
import HotStuffRs.Pacemaker.Schedule
import HotStuffRs.Types.RawValidatorSet
import HotStuffRs.Types.ValidatorSetBytes
import HotStuffRs.BlockTree.Pruning
import HotStuffRs.Networking.Eviction
import HotStuffRs.Replica.Progress
import HotStuffRs.Replica.Numbers
import HotStuffRs.Replica.HighestPc
import HotStuffRs.Types.BlockHash
import HotStuffRs.Chained.Voting
import HotStuffRs.Replica.Agreement
import HotStuffRs.Replica.Leader
import HotStuffRs.Replica.StateMachine
import HotStuffRs.Replica.Bytes
import HotStuffRs.Replica.TotalSync
