import ApiFirewall.ListSplit
import ApiFirewall.OffsetGroup
import ApiFirewall.Reactive.Mono
import ApiFirewall.Reactive.Trace
import ApiFirewall.Reactive.Runtime
import ApiFirewall.Reactive.ThreadOrder
import ApiFirewall.Reactive.Steps
import ApiFirewall.Reactive.WorkerGroup
import ApiFirewall.Reactive.Attempts
import ApiFirewall.Reactive.Conclusion
import ApiFirewall.Reactive.Retry
import ApiFirewall.KeyValue.Store
import ApiFirewall.KeyValue.WindowCounter
import ApiFirewall.KeyValue.TypedStore
import ApiFirewall.Batching.Batches
import ApiFirewall.Arithmetic.RangeDistance
import ApiFirewall.Arithmetic.HalfEven
import ApiFirewall.Arithmetic.Entropy
import ApiFirewall.Wire.Double
import ApiFirewall.Wire.DoubleOrder
import ApiFirewall.Wire.Rounding
import ApiFirewall.Wire.CodePoint
import ApiFirewall.Wire.Json
import ApiFirewall.Wire.JsonText
import ApiFirewall.Wire.JsonWriter
import ApiFirewall.Wire.LenientText
import ApiFirewall.Wire.UnescapedText
import ApiFirewall.Wire.Truncation
import ApiFirewall.Wire.IndentedText
import ApiFirewall.Wire.MemberOrder
import ApiFirewall.Gateway.JavaText
import ApiFirewall.Engine.Features
import ApiFirewall.Engine.NumericAnomaly
import ApiFirewall.Engine.ExactAnomaly
import ApiFirewall.Engine.WorstDeviation
import ApiFirewall.Engine.FieldOrder
import ApiFirewall.Engine.EnsembleThreatModel
import ApiFirewall.Engine.TrainingData
import ApiFirewall.Gateway.Messages
import ApiFirewall.Gateway.RecordText
import ApiFirewall.Calls
import ApiFirewall.Gateway.PathRouting
import ApiFirewall.Gateway.Services
import ApiFirewall.Gateway.ZeroTrustFilter
import ApiFirewall.Gateway.RequestTrace
import ApiFirewall.Gateway.RequestCalls
import ApiFirewall.Gateway.RequestCounters
import ApiFirewall.Gateway.ScoreExchange
import ApiFirewall.Engine.KafkaConsumer
import ApiFirewall.Engine.MessageTrace
import ApiFirewall.Engine.ConsumeLoop
import ApiFirewall.Engine.MessageEffects
import ApiFirewall.Engine.ScoreEndpoint
import ApiFirewall.Indexer.AuditIndexer
import ApiFirewall.Indexer.TimedIndexer
import ApiFirewall.Indexer.ConsumerGroup
import ApiFirewall.Indexer.IpLiteral
import ApiFirewall.Backend.OrderService
import ApiFirewall.Engine.RecordText
import ApiFirewall.Engine.ScoreText
import ApiFirewall.Engine.ModelArtifacts
import ApiFirewall.Engine.TrainingRows
import ApiFirewall.StartUp
import ApiFirewall.Deployment
import ApiFirewall.ConsumerRuns
import ApiFirewall.CounterRuns
import ApiFirewall.Guarantees.Enforcement
import ApiFirewall.Guarantees.AuditTrail
import ApiFirewall.Guarantees.Blocklist
import ApiFirewall.Guarantees.BlockWriters
import ApiFirewall.Guarantees.PeerBinding
import ApiFirewall.Guarantees.RateWindows
import ApiFirewall.Guarantees.SignalFormat
import ApiFirewall.Guarantees.DeliveredSignals
import ApiFirewall.Guarantees.UnscoredBurst
import ApiFirewall.Guarantees.RateCounts
import ApiFirewall.Guarantees.AuthStreak
import ApiFirewall.Guarantees.PathSpelling
import ApiFirewall.Guarantees.ConsumerEffects
import ApiFirewall.Guarantees.MalformedRecords
import ApiFirewall.Guarantees.OrderIndependence
import ApiFirewall.Guarantees.IndexableClients
import ApiFirewall.Guarantees.ScoreAgreement
import ApiFirewall.Guarantees.AuditDelivery
import ApiFirewall.Guarantees.Disposition
import ApiFirewall.Guarantees.Baselines
import ApiFirewall.Guarantees.CounterIsolation
import ApiFirewall.Guarantees.NumericAnomalyLaw
import ApiFirewall.Guarantees.EnsembleScore
import ApiFirewall.Guarantees.ExtractionTotality
import ApiFirewall.Guarantees.BodyExtension
import ApiFirewall.Guarantees.InspectedBody
import ApiFirewall.Guarantees.SharedNumbers
import ApiFirewall.Guarantees.CounterExpiry
import ApiFirewall.Guarantees.AuditLatency
import ApiFirewall.Guarantees.PayloadEntropy
import ApiFirewall.Guarantees.TrainingSupport
import ApiFirewall.Guarantees.StartUpRetry
import ApiFirewall.Guarantees.ClientIdentity
import ApiFirewall.Guarantees.TelemetryText
import ApiFirewall.Guarantees.AuditPipeline
import ApiFirewall.Guarantees.BoundedWork
import ApiFirewall.Guarantees.StoreTypes
import ApiFirewall.Guarantees.RejectionBody
import ApiFirewall.Guarantees.FailOpen
import ApiFirewall.Guarantees.ScorerGroup
import ApiFirewall.Guarantees.AnsweredOnce
import ApiFirewall.Guarantees.ExchangedTexts
import ApiFirewall.Guarantees.Answerable
import ApiFirewall.Guarantees.TrainedModels
