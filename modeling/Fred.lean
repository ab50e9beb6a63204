import Fred.Lib.Forest
import Fred.Lib.Transition
import Fred.Lib.ChainedVoting
import Fred.Hotstuff.Certs
import Fred.Hotstuff.App
import Fred.Hotstuff.QuorumIntersection
import Fred.Hotstuff.Shape
import Fred.Hotstuff.Insert
import Fred.Hotstuff.Status
import Fred.Hotstuff.UpdateSpec
import Fred.Hotstuff.WellFormed
import Fred.Hotstuff.Steps
import Fred.Hotstuff.Outside
import Fred.Hotstuff.CommitLog
import Fred.Hotstuff.Votes
import Fred.Hotstuff.VotingRule
import Fred.Hotstuff.Saved
import Fred.Hotstuff.Recovery
import Fred.Hotstuff.Circulation
import Fred.Hotstuff.Promises
import Fred.Hotstuff.Evidence
import Fred.Hotstuff.Agreement
import Fred.Hotstuff.Bodies
import Fred.Hotstuff.Durable
import Fred.Hotstuff.FetchManager
import Fred.Hotstuff.NetworkQueue
import Fred.Hotstuff.Forms
import Fred.Hotstuff.NetworkForms
import Fred.Hotstuff.Placement
import Fred.Hotstuff.Fetching
import Fred.Hotstuff.Gathering
import Fred.Hotstuff.Drain
import Fred.Hotstuff.SelfVotes
import Fred.Hotstuff.Leaf
import Fred.Hotstuff.Lives
import Fred.Hotstuff.Sections
import Fred.Hotstuff.StableLeader
import Fred.Vm.SpeculativeExecGadget
import Fred.Vm.ControlInterface
import Fred.Vm.CountingVM
import Fred.Vm.Bridges
import Fred.Vm.Delivery
import Fred.Vm.DecidedBlocks
import Fred.Vm.Replay
import Fred.Vm.Leader
import Fred.Hotstuff.CertificateChecks
import Fred.Hotstuff.StoreRuns
import Fred.Hotstuff.FetchQueues
import Fred.Lib.BigEndian
import Fred.Hotstuff.IndexRecords
import Fred.Lib.Mutex
import Fred.Vm.Locking
import Fred.Vm.ProposalBytes
import Fred.Darkpool.Server
import Fred.Darkpool.Ledger
import Fred.Darkpool.Client
import Fred.Hotstuff.UpdateRule
import Fred.Darkpool.Append
import Fred.Lib.ForwardList
import Fred.Vm.LinkedGadget
import Fred.Vm.Notifications
import Fred.Vm.ControlThread
import Fred.Vm.ThreadHistory
import Fred.Vm.CommitCounts
import Fred.Hotstuff.PaceMaker
import Fred.Hotstuff.SaveRuns
import Fred.Hotstuff.Pruning
import Fred.Vm.HeadHeights
import Fred.Hotstuff.Collector
import Fred.Hotstuff.IndexKeys
import Fred.Hotstuff.Accepted
import Fred.Hotstuff.Returns
import Fred.Hotstuff.Rounds
import Fred.Hotstuff.Following
import Fred.Hotstuff.Leading
import Fred.Hotstuff.Progress
import Fred.Hotstuff.BlockFiles
import Fred.Hotstuff.Liveness
import Fred.Lib.Framing
import Fred.Xdrpp.Connection
import Fred.Hotstuff.ProtocolClient
import Fred.Vm.Replication
import Fred.Hotstuff.Services
import Fred.Xdrpp.Session
