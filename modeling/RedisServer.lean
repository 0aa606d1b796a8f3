import RedisServer.MessageLoss
import RedisServer.LazyExpiry
import RedisServer.RequestOrder
import RedisServer.SetPropagation
import RedisServer.OrderedOverwrites
import RedisServer.ReplicaConvergence
import RedisServer.PoolHistories
import RedisServer.ArrayRoundTrip
import RedisServer.CoalescedRequests
import RedisServer.ValueRoundTrip
import RedisServer.BulkStringGrammar
import RedisServer.ChainProgress
import RedisServer.ReplicaBookkeeping
import RedisServer.RequestFrames
import RedisServer.SplitRequests
import RedisServer.SubscriptRanges
import RedisServer.RdbRoundTrip
import RedisServer.ResyncOrdering
import RedisServer.ReplySeparation
import RedisServer.ReplyDiscipline
import RedisServer.RdbStringForms
import RedisServer.SecondsExpiry
import RedisServer.ResyncPayload
import RedisServer.ReaderBudgets
import RedisServer.TableSizes
import RedisServer.EcmaScriptPatterns
import RedisServer.KeysPatterns
import RedisServer.KeysAgreement
import RedisServer.ExhaustedStreams
import RedisServer.TruncatedFiles
import RedisServer.FileTrailers
import RedisServer.EcmaScriptSearch
import RedisServer.MasterAddress
import RedisServer.Handshake
import RedisServer.QueueHistories
import RedisServer.NonBlockingQueue
import RedisServer.QueueChain
import RedisServer.QueueTail
import RedisServer.MessageFraming
import RedisServer.Linearization
import RedisServer.PoolProgress
import RedisServer.QueueProgress
import RedisServer.QueueMemory
import RedisServer.ShortSends
import RedisServer.FailedSends
import RedisServer.StrandedServer
import RedisServer.ServerStartup
import RedisServer.ReplicatedWrites
import RedisServer.KeyListings
import RedisServer.ReplicationInfo
