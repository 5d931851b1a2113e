import Napastak.Access
import Napastak.AccessRuns
import Napastak.Append
import Napastak.AppendScan
import Napastak.Audit
import Napastak.Base64url
import Napastak.BtreeFile
import Napastak.BtreeInsert
import Napastak.BtreeRange
import Napastak.CStr
import Napastak.ColBatch
import Napastak.Compact
import Napastak.CompactScan
import Napastak.Compress
import Napastak.CompressExact
import Napastak.CompressTrip
import Napastak.ConnPool
import Napastak.ConnPoolLease
import Napastak.ConnPoolRuns
import Napastak.Cron
import Napastak.CronRuns
import Napastak.Csv
import Napastak.Decimal
import Napastak.Exec
import Napastak.Expr
import Napastak.HashMap
import Napastak.HashMapRuns
import Napastak.Http
import Napastak.HttpBlock
import Napastak.HttpReceive
import Napastak.Ingest
import Napastak.IngestAtomic
import Napastak.Json
import Napastak.JsonTrip
import Napastak.Jwt
import Napastak.Lexeme
import Napastak.Lexer
import Napastak.Lib.Calendar
import Napastak.Lib.Codec
import Napastak.Lib.Dict
import Napastak.Lib.Feed
import Napastak.Lib.Framing
import Napastak.Lib.Fuel
import Napastak.Lib.Groups
import Napastak.Lib.Keyset
import Napastak.Lib.Kleene
import Napastak.Lib.Munch
import Napastak.Lib.Replay
import Napastak.Lib.Ring
import Napastak.Lib.Rle
import Napastak.Lib.RobinHood
import Napastak.Lib.Seek
import Napastak.Lib.SepChain
import Napastak.Lib.Slots
import Napastak.Lib.Table
import Napastak.Lib.Utf8
import Napastak.MatView
import Napastak.MatViewQueue
import Napastak.MatViewRuns
import Napastak.NamedParams
import Napastak.NamedParamsLex
import Napastak.Own
import Napastak.Page
import Napastak.ParamLiteral
import Napastak.PgRead
import Napastak.PgTemplate
import Napastak.PgWire
import Napastak.PgWireBounds
import Napastak.PgWirePortals
import Napastak.PgWireSync
import Napastak.Pipeline
import Napastak.PipelineTrip
import Napastak.Replicator
import Napastak.ReplicatorRuns
import Napastak.RowFilter
import Napastak.Scan
import Napastak.Scd2
import Napastak.Scd2Columns
import Napastak.Scd2Frame
import Napastak.Scd2Plan
import Napastak.Scd2Repeat
import Napastak.Scd2Runs
import Napastak.Scd2Store
import Napastak.Split
import Napastak.SortOp
import Napastak.SplitJoin
import Napastak.SplitRfc
import Napastak.Stmt
import Napastak.Stream
import Napastak.StreamScan
import Napastak.Textenc
import Napastak.TextencKept
import Napastak.Txn
import Napastak.TxnRuns
import Napastak.Val
import Napastak.Wal
import Napastak.WalCallback
import Napastak.WalHandle
import Napastak.WalRuns
import Napastak.Where
import Napastak.Yaml
import Napastak.YamlLayout
import Napastak.YamlTemplate
import Napastak.YamlTemplateVars
import Napastak.YamlTemplateBlock
import Napastak.CsvFile
import Napastak.CsvFileTrip
import Napastak.ScriptCsv
import Napastak.TriggersRuns
import Napastak.ThreadPoolRuns
import Napastak.ThriftSkip
import Napastak.FileWatcher
import Napastak.ArenaAlloc
import Napastak.DecArithExact
import Napastak.ValOrder
import Napastak.Grouping
import Napastak.GroupKeys
import Napastak.Aggregates
import Napastak.BtreeSession
import Napastak.CompressForm
import Napastak.OpScanRuns
import Napastak.TxnCommit
import Napastak.ExprShape
import Napastak.Like
import Napastak.WindowFrame
import Napastak.SetOps
import Napastak.Substr
import Napastak.JsonHalt
import Napastak.Project
import Napastak.Lib.InsertSort
import Napastak.OrderBy
import Napastak.Lib.Ranks
import Napastak.WindowRank
import Napastak.LeftDeep
import Napastak.ExprInv
import Napastak.ExprSticky
import Napastak.ExprPlaces
import Napastak.ExprSound
import Napastak.TextencExact
import Napastak.JsonString
import Napastak.PipelineOrder
import Napastak.NormName
import Napastak.NormNameExact
import Napastak.Levenshtein
import Napastak.SqlHalt
import Napastak.JsonGrammar
import Napastak.QueryJson
import Napastak.Lib.FirstFit
import Napastak.Lib.Pairs
import Napastak.Similarity
import Napastak.MatchStep
import Napastak.Thrift
import Napastak.ParquetRead
import Napastak.ParquetRange
import Napastak.ParquetFooter
import Napastak.RleHybrid
import Napastak.LimitOp
import Napastak.Lib.Lz
import Napastak.Snappy
import Napastak.Xml
import Napastak.XmlHalt
import Napastak.XmlTrip
import Napastak.Avro
import Napastak.AvroCut
import Napastak.SqlTemplate
import Napastak.CompressRoom
import Napastak.Lib.Growth
import Napastak.KafkaSink
import Napastak.Lib.Rounding
import Napastak.Binary64
import Napastak.JsonHttp
import Napastak.Lib.Snprintf
import Napastak.PgSink
import Napastak.Lib.Pull
import Napastak.Lib.NestedLoop
import Napastak.Lib.Join
import Napastak.OpInput
import Napastak.JoinOp
import Napastak.Lib.Qsort
import Napastak.AuthGate
