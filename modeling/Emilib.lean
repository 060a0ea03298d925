import Emilib.Runs
import Emilib.Loops
import Emilib.Ledger
import Emilib.CountDown
import Emilib.RankedLocks
import Emilib.CircularLists
import Emilib.Footprints
import Emilib.DyadicNodes
import Emilib.BuddyTree
import Emilib.BuddyNodes
import Emilib.BuddyWalks
import Emilib.BuddyTiling
import Emilib.BuddySummary
import Emilib.BuddyOwnership
import Emilib.BuddyPromises
import Emilib.BuddyRecovery
import Emilib.BuddyAgreement
import Emilib.BuddyOverflow
import Emilib.ByteWords
import Emilib.FlagBits
import Emilib.Messages
import Emilib.Transfers
import Emilib.SharedBlocks
import Emilib.BuddyExtents
import Emilib.Requests
import Emilib.ReceiveRoom
import Emilib.ReturnData
import Emilib.Replies
import Emilib.SenderBuffers
import Emilib.TruncatedStreams
import Emilib.ReceiveOperation
import Emilib.ReceiverCount
import Emilib.DeliverySlot
import Emilib.Verdict
import Emilib.MsgTable
import Emilib.TablePasses
import Emilib.UniqueEntries
import Emilib.Registration
import Emilib.PidBounds
import Emilib.ThreadPool
import Emilib.PoolAssignments
import Emilib.PoolJobs
import Emilib.PoolTeardown
import Emilib.PoolSignals
import Emilib.PoolOrder
import Emilib.PoolRing
import Emilib.LockOrder
import Emilib.BlockIndices
import Emilib.ArenaBytes
import Emilib.SeparateBlocks
import Emilib.OverlappingBlocks
import Emilib.SendCompletion
import Emilib.AllocSizes
import Emilib.Segments
import Emilib.ReplyBounds
import Emilib.ReturnChain
import Emilib.IntrusiveLists
import Emilib.MsgChains
import Emilib.LockedWalks
import Emilib.DuplicateScan
import Emilib.RegistrationFailures
import Emilib.Exchange
import Emilib.PythonReturns
import Emilib.ConfigText
import Emilib.ConfigPort
import Emilib.Destinations
