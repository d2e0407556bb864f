import Jevt.Text
import Jevt.Library.Run
import Jevt.Knowledge.Fact
import Jevt.Knowledge.Graph
import Jevt.Library.Joined
import Jevt.Knowledge.Key
import Jevt.Library.Keyed
import Jevt.Knowledge.Invariant
import Jevt.Knowledge.Reachable
import Jevt.Knowledge.Session
import Jevt.Knowledge.Arrival
import Jevt.Knowledge.Budget
import Jevt.Library.Json
import Jevt.Knowledge.Document
import Jevt.Cache.Fencing
import Jevt.Decision.Graph
import Jevt.Decision.Kahn
import Jevt.Decision.Order
import Jevt.Decision.Evaluation
import Jevt.Decision.Meaning
import Jevt.Decision.Freshness
import Jevt.Batching.Pool
import Jevt.Batching.Steps
import Jevt.Batching.Invariant
import Jevt.Batching.Delivery
import Jevt.Batching.Routing
import Jevt.Batching.Answers
import Jevt.Library.Extremal
import Jevt.Knowledge.Lineage
import Jevt.Knowledge.Provenance
import Jevt.Knowledge.Deduplication
import Jevt.Knowledge.Generation
import Jevt.Decision.Reordering
import Jevt.Core.Floating
import Jevt.Diagnostics.Registry
import Jevt.Library.Distinct
import Jevt.Diagnostics.Summary
import Jevt.Runtime.Backend
import Jevt.Runtime.Decision
import Jevt.SystemOne.Model
import Jevt.SystemOne.Evaluate
import Jevt.Runtime.Accounting
import Jevt.Batching.Isolation
import Jevt.Skills.Arbitration
import Jevt.Skills.Ranking
import Jevt.Skills.Execution
import Jevt.Cache.Recency
import Jevt.Cache.Nodes
import Jevt.Cache.Refinement
import Jevt.Library.Recency
import Jevt.Remote.Options
import Jevt.Remote.Send
import Jevt.Library.Ordered
import Jevt.Library.Decimal
import Jevt.Library.Traverse
import Jevt.Remote.Json
import Jevt.Remote.Payload
import Jevt.Remote.Answer
import Jevt.Remote.Batch
import Jevt.Remote.Routing
import Jevt.Remote.Choice
import Jevt.Library.Replace
import Jevt.Laya.Head
import Jevt.Laya.Packing
import Jevt.Laya.Native
import Jevt.Library.Fifo
import Jevt.Laya.HeadCache
import Jevt.Library.Rows
import Jevt.Laya.Batch
import Jevt.Laya.Batching
import Jevt.Library.Regex
import Jevt.Laya.Search
import Jevt.Laya.Config
import Jevt.Laya.Calibration
import Jevt.Laya.NativeBatch
import Jevt.Laya.NativeRows
import Jevt.Laya.NativeLayout
import Jevt.Laya.NativeAnswers
import Jevt.Laya.NativeBatching
import Jevt.SystemOne.Agreement
import Jevt.Library.Selection
import Jevt.Batching.Formation
import Jevt.Knowledge.Preservation
import Jevt.Decision.Acceptance
import Jevt.Library.Utf8
import Jevt.Decision.Registry
import Jevt.Knowledge.Query
import Jevt.Library.Find
import Jevt.Diagnostics.HttpServer
import Jevt.Library.Rounding
import Jevt.Library.Numeral
import Jevt.Library.JsonWriter
import Jevt.Core.Format
import Jevt.Diagnostics.Export
import Jevt.Diagnostics.Encoding
import Jevt.Library.Quantile
import Jevt.Diagnostics.Percentile
import Jevt.Library.OrderedMap
import Jevt.Experience.Memory
import Jevt.Experience.Episode
import Jevt.Library.Statistics
import Jevt.Experience.Moments
import Jevt.Experience.Shadow
import Jevt.Experience.Context
import Jevt.Library.Uri
import Jevt.Remote.Models
import Jevt.Remote.Endpoint
import Jevt.Knowledge.Status
import Jevt.Cache.Expiry
import Jevt.Library.Throwing
import Jevt.Batching.Exceptions
import Jevt.SystemOne.Instructions
import Jevt.Library.Exposition
import Jevt.Diagnostics.Prometheus
import Jevt.Diagnostics.Scrape
import Jevt.Library.Monitor
import Jevt.Batching.Waiting
import Jevt.Batching.Shutdown
import Jevt.Library.HttpMessage
import Jevt.Diagnostics.Response
import Jevt.Diagnostics.Lifecycle
import Jevt.Diagnostics.Stopping
import Jevt.Remote.Transport
import Jevt.Batching.Async
import Jevt.Batching.Ownership
import Jevt.Library.Lending
import Jevt.Remote.Connections
import Jevt.Laya.Concurrent
import Jevt.SystemOne.Projection
import Jevt.Laya.Pooled
