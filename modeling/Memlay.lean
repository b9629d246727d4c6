import Memlay.Accounting
import Memlay.IndexConsistency
import Memlay.ReplacementOrder
import Memlay.RefusedInsert
import Memlay.ThreadCounters
import Memlay.ThreadWinner
import Memlay.ThreadSets
import Memlay.ThreadTombs
import Memlay.FilterSound
import Memlay.Eviction
import Memlay.LoadEviction
import Memlay.Amplification
import Memlay.HashedBuckets
import Memlay.StaysDeleted
import Memlay.CoordinateDeletion
import Memlay.FanoutRouting
import Memlay.FanoutIndex
import Memlay.OverflowClose
import Memlay.SlowPeer
import Memlay.LiveGap
import Memlay.RequestAnswers
import Memlay.MessageRoundTrip
import Memlay.Dispatch
import Memlay.CheckpointLoss
import Memlay.SequentialRecovery
import Memlay.InsertRace
import Memlay.TornTail
import Memlay.WalFailures
import Memlay.LogSize
import Memlay.CompactRace
import Memlay.DeletionRace
import Memlay.Authenticity
import Memlay.Locks
import Memlay.WalThreads
import Memlay.ThreadReads
import Memlay.ThreadTombQueue
import Memlay.EventId
import Memlay.SessionBounds
import Memlay.SessionLog
import Memlay.SessionStreams
import Memlay.SessionReplies
import Memlay.SessionPermits
import Memlay.SessionEnd
import Memlay.SessionOrigins
import Memlay.EvictedRecovery
import Memlay.Upkeep
import Memlay.EvictionPace
