import Bora.Library.ByteMemory
import Bora.Library.Checked
import Bora.Library.Transition
import Bora.Library.FirstMatch
import Bora.Library.RingBuffer
import Bora.Messages
import Bora.NetEncoder
import Bora.BlockCache
import Bora.Fragmentation
import Bora.FragmentStore
import Bora.Reassembly
import Bora.Swarm
import Bora.IndexSafety
import Bora.SendQueues
import Bora.CookieSender
import Bora.SenderThread
import Bora.SenderSafety
import Bora.Retransmission
import Bora.Ack
import Bora.PacketSend
import Bora.AckReceived
import Bora.RecvStats
import Bora.PacketReceiver
import Bora.Lengths
import Bora.Framing
import Bora.Delivery
import Bora.AckSoundness
import Bora.FragmentCodec
import Bora.AddOutcome
import Bora.Receiver
import Bora.Completion
import Bora.Possession
import Bora.PacketCopies
import Bora.CacheThreads
import Bora.BlockLocks
import Bora.CookieExchange
import Bora.PullHandshake
import Bora.GlobalLock
import Bora.Relay
import Bora.NodeTables
import Bora.ResentPackets
import Bora.Accounting
import Bora.SequenceNumbers
import Bora.Consecutive
import Bora.RawMessages
import Bora.Library.SlotRing
import Bora.ReceiveRing
import Bora.CompletionRing
import Bora.Library.Meter
import Bora.StatsWindows
import Bora.PacketWrites
import Bora.Overruns
import Bora.BlockListings
import Bora.FirstWrite
import Bora.ResendQueueing
import Bora.SendblockReport
import Bora.AckHistory
import Bora.LatestAck
import Bora.AckCodec
import Bora.PeerStatistics
import Bora.Pacing
import Bora.FragmentPartition
import Bora.BwMessages
import Bora.Estimates
import Bora.Timeouts
import Bora.Bandwidth
import Bora.SweepSelection
import Bora.AckReports
import Bora.NackHeap
import Bora.NackThreads
import Bora.CacheMemory
import Bora.PeerIsolation
import Bora.Library.Simulation
import Bora.StaleBytes
import Bora.ReceivePath
import Bora.ContentDelivery
import Bora.Library.Progress
import Bora.Library.Rendezvous
import Bora.BwsHandshake
