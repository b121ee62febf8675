import EasyBlockchain.Py.DateTime
import EasyBlockchain.Py.Sha256
import EasyBlockchain.Lib.Growth
import EasyBlockchain.Lib.PrefixCode
import EasyBlockchain.HashUtils
import EasyBlockchain.Py.StrDict
import EasyBlockchain.Py.Builtins
import EasyBlockchain.Signature
import EasyBlockchain.ConsensusBase
import EasyBlockchain.Pow
import EasyBlockchain.Pos
import EasyBlockchain.BlockChain
import EasyBlockchain.Py.CPython
import EasyBlockchain.PowAcceptance
import EasyBlockchain.PosAcceptance
import EasyBlockchain.OwnChain
import EasyBlockchain.LegacyChain
import EasyBlockchain.PosProducer
import EasyBlockchain.Proposer
import EasyBlockchain.ScheduledChange
import EasyBlockchain.PersistWorker
import EasyBlockchain.PeerAuth
import EasyBlockchain.PeerGate
import EasyBlockchain.Handshake
import EasyBlockchain.FinalSave
import EasyBlockchain.ForkAttribution
import EasyBlockchain.HashCommitment
import EasyBlockchain.PowWork
import EasyBlockchain.StoreAtomicity
import EasyBlockchain.Lib.Selection
import EasyBlockchain.ForkChoice
import EasyBlockchain.Node
import EasyBlockchain.ForkResolution
import EasyBlockchain.Py.JsonSize
import EasyBlockchain.Py.JsonReread
import EasyBlockchain.Py.JsonText
import EasyBlockchain.SyncSession
import EasyBlockchain.LateFragment
import EasyBlockchain.SyncExchange
import EasyBlockchain.SyncProgress
import EasyBlockchain.SyncFork
import EasyBlockchain.SyncTasks
import EasyBlockchain.Messages
import EasyBlockchain.PowForkChoice
import EasyBlockchain.PosForkChoice
import EasyBlockchain.PosConvergence
import EasyBlockchain.StakeCache
import EasyBlockchain.NodeInit
import EasyBlockchain.NodeChanges
import EasyBlockchain.NodeStarted
import EasyBlockchain.Restart
import EasyBlockchain.StoreRoundTrip
import EasyBlockchain.Announcement
import EasyBlockchain.PowRetarget
import EasyBlockchain.P2PServer
import EasyBlockchain.PeerUrls
import EasyBlockchain.RetryCount
import EasyBlockchain.PeerUrl
import EasyBlockchain.HelloSigning
import EasyBlockchain.BlockStructure
import EasyBlockchain.RetargetBounds
import EasyBlockchain.ProposerShare
import EasyBlockchain.RateLimit
import EasyBlockchain.Discovery
import EasyBlockchain.DecodeErrors
import EasyBlockchain.PingLoop
import EasyBlockchain.Backoff
import EasyBlockchain.AllOrNothing
import EasyBlockchain.SharedStakes
import EasyBlockchain.Rejections
import EasyBlockchain.PeerIsolation
import EasyBlockchain.SelfBlocking
import EasyBlockchain.Lib.SlotLog
import EasyBlockchain.ProposerSchedule
import EasyBlockchain.PosNetwork
import EasyBlockchain.Py.JsonValues
import EasyBlockchain.TamperEvidence
import EasyBlockchain.PowNetwork
import EasyBlockchain.WaitingCalls
import EasyBlockchain.PosProgress
import EasyBlockchain.Flooding
import EasyBlockchain.GivingUp
import EasyBlockchain.SignedLedger
import EasyBlockchain.Forgetting
