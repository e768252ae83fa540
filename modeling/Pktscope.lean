import Pktscope.Library.Prog
import Pktscope.Library.Pipeline
import Pktscope.Library.Replay
import Pktscope.Library.Lru
import Pktscope.Library.Memo
import Pktscope.Library.Ordered
import Pktscope.Library.Text
import Pktscope.Library.Columns
import Pktscope.Library.Folds
import Pktscope.Library.Sessions
import Pktscope.Library.Runs
import Pktscope.Library.Ewma
import Pktscope.Library.Serial
import Pktscope.Library.Slice
import Pktscope.Library.Checked
import Pktscope.Library.Combinators
import Pktscope.Library.Window
import Pktscope.Library.Tally
import Pktscope.Library.BitFields
import Pktscope.Library.Bytes
import Pktscope.Library.Utf8
import Pktscope.Library.LossyText
import Pktscope.Library.Dictionary
import Pktscope.Library.DomainNames
import Pktscope.Library.DnsFormat
import Pktscope.Library.Spans
import Pktscope.Library.HeaderCoding
import Pktscope.Library.Framing
import Pktscope.Library.HelloFormat
import Pktscope.Library.CaptureFile
import Pktscope.Library.Rows
import Pktscope.Library.BufWriter
import Pktscope.Numeric.Machine
import Pktscope.Net.Addr
import Pktscope.Net.Display
import Pktscope.Decode.Layers
import Pktscope.Decode.Fragments
import Pktscope.Decode.Headers
import Pktscope.Decode.Dns
import Pktscope.Decode.DnsNames
import Pktscope.Decode.DnsRecords
import Pktscope.Library.DnsPacking
import Pktscope.Decode.DnsCompression
import Pktscope.Decode.DnsRoundTrip
import Pktscope.Decode.DnsLimits
import Pktscope.Decode.RdataConfinement
import Pktscope.Decode.DnsShift
import Pktscope.Decode.DnsEntries
import Pktscope.Decode.DnsPairs
import Pktscope.Decode.DnsOverTcp
import Pktscope.Decode.Fingerprint
import Pktscope.Decode.Ja3
import Pktscope.Decode.Tls
import Pktscope.Decode.HelloRecords
import Pktscope.Decode.HelloExtensions
import Pktscope.Decode.Ja4Shape
import Pktscope.Decode.Frames
import Pktscope.Decode.Grease
import Pktscope.Decode.Http
import Pktscope.Decode.HttpHeads
import Pktscope.Decode.Http2
import Pktscope.Decode.Diagrams
import Pktscope.Decode.DynamicTable
import Pktscope.Decode.HeaderBlocks
import Pktscope.Decode.ClientFrames
import Pktscope.Decode.Quic
import Pktscope.Decode.Chain
import Pktscope.Output.Writers
import Pktscope.Output.Save
import Pktscope.Flow.State
import Pktscope.Flow.Tracker
import Pktscope.Filter.Parser
import Pktscope.Filter.Eval
import Pktscope.Filter.Reading
import Pktscope.Filter.Written
import Pktscope.Filter.Grammar
import Pktscope.Filter.Printing
import Pktscope.Filter.FieldFilters
import Pktscope.Filter.Complement
import Pktscope.Library.Grouping
import Pktscope.Library.Pending
import Pktscope.Flow.DnsTracker
import Pktscope.Flow.Closing
import Pktscope.Flow.Ledger
import Pktscope.Flow.Reassembly
import Pktscope.Flow.Buffering
import Pktscope.Flow.Resends
import Pktscope.Flow.RoundTrips
import Pktscope.Flow.Completeness
import Pktscope.Decode.Padding
import Pktscope.Decode.Path
import Pktscope.Decode.RecordConfinement
import Pktscope.Decode.Tiling
import Pktscope.Tui.App
import Pktscope.Tui.Stream
import Pktscope.Tui.FilterBar
import Pktscope.Tui.Keys
import Pktscope.Tui.Cursor
import Pktscope.Tui.Editing
import Pktscope.Enrich.Names
import Pktscope.Enrich.Spelling
import Pktscope.Enrich.Projection
import Pktscope.Process.Identity
import Pktscope.Process.ProcNet
import Pktscope.Process.ProcTables
import Pktscope.Net.AddrParser
import Pktscope.Process.Lsof
import Pktscope.Process.Packets
import Pktscope.Library.Sql
import Pktscope.Library.Constraints
import Pktscope.Library.Feed
import Pktscope.Library.Ranked
import Pktscope.Library.Channel
import Pktscope.Alert.Kinds
import Pktscope.Store.Tables
import Pktscope.Store.Queries
import Pktscope.Store.Cooldown
import Pktscope.Store.Integrity
import Pktscope.Store.Reads
import Pktscope.Alert.Baseline
import Pktscope.Alert.Lifecycle
import Pktscope.Alert.Detectors
import Pktscope.Alert.Footprint
import Pktscope.Alert.Keys
import Pktscope.Alert.Verdict
import Pktscope.Alert.Novelty
import Pktscope.Alert.FirstContact
import Pktscope.Alert.IdentityWatch
import Pktscope.Alert.Reobserved
import Pktscope.Alert.Recall
import Pktscope.Alert.Retry
import Pktscope.Alert.Storage
import Pktscope.Alert.Silence
import Pktscope.Alert.Once
import Pktscope.Alert.Volume
import Pktscope.Alert.Pairs
import Pktscope.Monitor.Correlate
import Pktscope.Monitor.Turns
import Pktscope.Monitor.Lifetime
import Pktscope.Monitor.Attribution
import Pktscope.Monitor.Teardown
import Pktscope.Monitor.Capacity
import Pktscope.Monitor.Accounting
import Pktscope.Monitor.Orientation
import Pktscope.Monitor.LabelDrift
import Pktscope.Alert.LetterCase
import Pktscope.Monitor.PairCounts
import Pktscope.Monitor.Stream
import Pktscope.Monitor.Integrity
import Pktscope.Monitor.Naming
import Pktscope.Alert.EventHistory
import Pktscope.Alert.AlertFeed
import Pktscope.Inspector.State
import Pktscope.Inspector.Attach
import Pktscope.Inspector.Domains
import Pktscope.Inspector.Rollups
import Pktscope.Diff.Content
import Pktscope.Ipc.Protocol
import Pktscope.Ipc.Server
import Pktscope.Ipc.Session
import Pktscope.Ipc.Fanout
import Pktscope.Library.FairRounds
import Pktscope.Capture.Threads
import Pktscope.Capture.Moves
import Pktscope.Capture.Printed
import Pktscope.Capture.Completion
import Pktscope.Net.EndpointText
import Pktscope.Tui.Flows
import Pktscope.Process.IdentityCache
import Pktscope.Library.ServerFormat
import Pktscope.Decode.ServerRecords
import Pktscope.Decode.QuicHeaders
