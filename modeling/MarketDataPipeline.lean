import MarketDataPipeline.Library.Loop
import MarketDataPipeline.Library.ByteImage
import MarketDataPipeline.Library.Framing
import MarketDataPipeline.Library.LinearProbing
import MarketDataPipeline.Library.Displacement
import MarketDataPipeline.Library.Bitmap
import MarketDataPipeline.Library.StructFormat
import MarketDataPipeline.Library.Chunks
import MarketDataPipeline.Library.Bounds
import MarketDataPipeline.Library.Fairness
import MarketDataPipeline.Library.Records
import MarketDataPipeline.Library.Linearizability
import MarketDataPipeline.Library.ReleaseAcquire
import MarketDataPipeline.Wire.Bytes
import MarketDataPipeline.Wire.Protocol
import MarketDataPipeline.Wire.Parser
import MarketDataPipeline.Wire.RoundTrip
import MarketDataPipeline.Wire.Acceptance
import MarketDataPipeline.Sequence.Tracker
import MarketDataPipeline.Sequence.Delivery
import MarketDataPipeline.Sequence.Window
import MarketDataPipeline.Sequence.Accounting
import MarketDataPipeline.Book.OrderPool
import MarketDataPipeline.Book.Levels
import MarketDataPipeline.Book.Scan
import MarketDataPipeline.Book.Builder
import MarketDataPipeline.Book.Steps
import MarketDataPipeline.Book.Refinement
import MarketDataPipeline.Book.Ticks
import MarketDataPipeline.Book.Histories
import MarketDataPipeline.Book.Tops
import MarketDataPipeline.Book.Consistency
import MarketDataPipeline.Book.Undo
import MarketDataPipeline.Book.Replace
import MarketDataPipeline.Book.Bounds
import MarketDataPipeline.Book.Probes
import MarketDataPipeline.Book.Shards
import MarketDataPipeline.Queue.Spsc
import MarketDataPipeline.Queue.Size
import MarketDataPipeline.Queue.Linear
import MarketDataPipeline.Queue.Weak
import MarketDataPipeline.Queue.Orders
import MarketDataPipeline.Feed.Payload
import MarketDataPipeline.Feed.Handler
import MarketDataPipeline.Feed.Session
import MarketDataPipeline.Feed.CatchUp
import MarketDataPipeline.Feed.Simulator
import MarketDataPipeline.Feed.Sender
import MarketDataPipeline.Feed.Gaps
import MarketDataPipeline.Feed.Trades
import MarketDataPipeline.Feed.Threads
import MarketDataPipeline.Feed.Tape
import MarketDataPipeline.Feed.Server
import MarketDataPipeline.Feed.Exchange
import MarketDataPipeline.Feed.Serving
import MarketDataPipeline.Feed.Lossy
import MarketDataPipeline.Feed.Reorder
import MarketDataPipeline.Feed.Hostile
import MarketDataPipeline.Feed.Shutdown
import MarketDataPipeline.Bars.Log
import MarketDataPipeline.Bars.Aggregator
import MarketDataPipeline.Bars.Runs
import MarketDataPipeline.Bars.TimeBars
import MarketDataPipeline.Bars.VolumeBars
import MarketDataPipeline.Bars.Stamps
import MarketDataPipeline.Feed.Files
import MarketDataPipeline.Feed.Determined
