import SentryNode.Library.Run
import SentryNode.Library.Broadcast
import SentryNode.Hex
import SentryNode.BlockCache.History
import SentryNode.BlockCache.Latest
import SentryNode.BlockCache.Whole
import SentryNode.BlockCache.File
import SentryNode.BlockCache.Drained
import SentryNode.BlockCache.Restore
import SentryNode.BlockImport
import SentryNode.EthProxy.Bodies
import SentryNode.EthProxy.BodiesMerge
import SentryNode.EthProxy.BodiesFitting
import SentryNode.EthProxy.BodiesInterleaved
import SentryNode.EthProxy.BodiesArrivals
import SentryNode.EthProxy.Headers
import SentryNode.EthProxy.HeadersForks
import SentryNode.EthProxy.HeadersProxy
import SentryNode.EthProxy.HeadersProgression
import SentryNode.EthProxy.HeadersCached
import SentryNode.EthProxy.HeadersInterleaved
import SentryNode.EthProxy.HeadersBounded
import SentryNode.EthProxy.Handler
import SentryNode.Network.Rebroadcast
import SentryNode.Network.AdvertisedHead
import SentryNode.Network.Gossip
import SentryNode.Validator
import SentryNode.Validator.BlobFees
import SentryNode.Dedup
import SentryNode.Forwarder
import SentryNode.Forwarder.Delivery
import SentryNode.Forwarder.Backpressure
import SentryNode.WsServer.Connection
import SentryNode.WsServer.Stream
import SentryNode.Network.PendingTransactions
import SentryNode.StartUp
import SentryNode.Forwarder.Progress
import SentryNode.WsServer.Progress
import SentryNode.Network.Pipeline
import SentryNode.Network.Pipeline.Progress
import SentryNode.NodeKey
import SentryNode.Network.Gossip.Circulation
import SentryNode.EthProxy.HeadersPaging
import SentryNode.BlockCache.Collection
import SentryNode.EthProxy.Task
import SentryNode.EthProxy.Task.Members
import SentryNode.EthProxy.Task.Serial
import SentryNode.EthProxy.Task.Honest
import SentryNode.EthProxy.Task.Progress
import SentryNode.Network.Lifetime
import SentryNode.Network.Gossip.Spread
import SentryNode.EthProxy.Line
