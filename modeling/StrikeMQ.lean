import StrikeMQ.Lib.Bytes
import StrikeMQ.Model.Types
import StrikeMQ.Model.PartitionLog
import StrikeMQ.Interface.StoredBatch
import StrikeMQ.Analysis.BatchSerialization
import StrikeMQ.Analysis.LogLayout
import StrikeMQ.Analysis.PartitionRead
import StrikeMQ.Analysis.AcknowledgedReads
import StrikeMQ.Analysis.SequentialConsumer
import StrikeMQ.Model.ConsumerGroup
import StrikeMQ.Analysis.SyncAgreement
import StrikeMQ.Lib.MemReader
import StrikeMQ.Model.KafkaDecoder
import StrikeMQ.Model.KafkaEncoder
import StrikeMQ.Model.RequestRouter
import StrikeMQ.Analysis.FrameIsolation
import StrikeMQ.Model.Broker
import StrikeMQ.Analysis.ByteQueue
import StrikeMQ.Analysis.ResponseSize
import StrikeMQ.Lib.Search
import StrikeMQ.Model.Connection
import StrikeMQ.Model.TcpServer
import StrikeMQ.Analysis.SessionRuns
import StrikeMQ.Model.HttpServer
import StrikeMQ.Analysis.ResponseStream
import StrikeMQ.Analysis.FrameProcessing
import StrikeMQ.Analysis.HttpParsing
import StrikeMQ.Analysis.MessageDelivery
import StrikeMQ.Model.HttpRoutes
import StrikeMQ.Analysis.HttpExecution
import StrikeMQ.Analysis.QueueRefinement
import StrikeMQ.Analysis.FrameExtraction
import StrikeMQ.Interface.GroupProtocol
import StrikeMQ.Analysis.GroupRefinement
import StrikeMQ.Analysis.GroupSafety
import StrikeMQ.Analysis.ConnectionHandoff
import StrikeMQ.Analysis.TopicAgreement
import StrikeMQ.Analysis.SegmentLayout
import StrikeMQ.Analysis.SparseIndex
import StrikeMQ.Lib.Varint
import StrikeMQ.Analysis.WireReading
import StrikeMQ.Interface.RecordFormat
import StrikeMQ.Analysis.RecordDecoding
import StrikeMQ.Analysis.ProduceDecoding
import StrikeMQ.Analysis.WireWriting
import StrikeMQ.Analysis.ProduceAnswers
import StrikeMQ.Analysis.ResponseFraming
import StrikeMQ.Interface.ResponseSchemas
import StrikeMQ.Analysis.ResponseRegrouping
import StrikeMQ.Interface.RequestSchemas
import StrikeMQ.Analysis.RequestDecoding
import StrikeMQ.Analysis.WireStorage
import StrikeMQ.Analysis.ShardedDirectory
import StrikeMQ.Interface.SpscQueue
import StrikeMQ.Analysis.SpscQueue
import StrikeMQ.Interface.MpscQueue
import StrikeMQ.Analysis.MpscQueue
import StrikeMQ.Model.MessagePeek
import StrikeMQ.Analysis.PeekReading
import StrikeMQ.Analysis.ParserAgreement
import StrikeMQ.Analysis.PostedRecords
import StrikeMQ.Analysis.PostPeek
import StrikeMQ.Analysis.PostRequests
import StrikeMQ.Interface.MessageJson
import StrikeMQ.Analysis.JsonStrings
import StrikeMQ.Analysis.JsonMessages
import StrikeMQ.Analysis.SessionExpiry
import StrikeMQ.Analysis.OffsetStore
import StrikeMQ.Analysis.SegmentFiles
import StrikeMQ.Analysis.PartitionDirectories
import StrikeMQ.Analysis.HeaderLines
import StrikeMQ.Interface.PeekedRange
import StrikeMQ.Model.RestHandlers
import StrikeMQ.Analysis.NumberReading
import StrikeMQ.Analysis.RangeWalk
import StrikeMQ.Analysis.BrokerRuns
import StrikeMQ.Analysis.RestRouting
import StrikeMQ.Analysis.RestExceptions
import StrikeMQ.Analysis.JoinResponses
import StrikeMQ.Analysis.ProtocolChoice
import StrikeMQ.Analysis.GroupEntries
import StrikeMQ.Analysis.MpscPush
import StrikeMQ.Analysis.RequestTarget
import StrikeMQ.Lib.Json
import StrikeMQ.Analysis.JsonTrees
import StrikeMQ.Analysis.PeekBounds
import StrikeMQ.Analysis.BatchRoundTrip
import StrikeMQ.Analysis.RecordAccess
import StrikeMQ.Model.RecordWalk
import StrikeMQ.Analysis.RecordSizes
import StrikeMQ.Analysis.RecordWalk
import StrikeMQ.Analysis.FramesAtClose
import StrikeMQ.Analysis.UringStreams
import StrikeMQ.Analysis.BufferCapacity
import StrikeMQ.Analysis.VarintCodecs
import StrikeMQ.Lib.LittleEndian
import StrikeMQ.Model.Endian
import StrikeMQ.Analysis.PrimitiveCodec
import StrikeMQ.Analysis.TopicRouting
import StrikeMQ.Interface.PoolRuns
import StrikeMQ.Analysis.PoolAllocator
import StrikeMQ.Analysis.ConnectionIsolation
import StrikeMQ.Analysis.RoundRobin
import StrikeMQ.Analysis.KafkaService
