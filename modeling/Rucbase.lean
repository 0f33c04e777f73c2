import Rucbase.Lib.Run
import Rucbase.Storage.Page
import Rucbase.Storage.DiskManager
import Rucbase.Replacer.LruReplacer
import Rucbase.Replacer.LruHistory
import Rucbase.Storage.BufferPool
import Rucbase.Lib.EState
import Rucbase.Storage.PoolSteps
import Rucbase.Storage.PoolInvariant
import Rucbase.Storage.PoolPins
import Rucbase.Storage.PoolContents
import Rucbase.Storage.PoolClients
import Rucbase.Storage.PoolFlush
import Rucbase.Storage.PoolErrors
import Rucbase.Storage.PoolProgress
import Rucbase.Storage.PoolFetchable
import Rucbase.Storage.PoolReads
import Rucbase.Lib.Bytes
import Rucbase.Lib.Memcmp
import Rucbase.Storage.FileHandles
import Rucbase.Record.RmManager
import Rucbase.Index.IxManager
import Rucbase.Storage.FileTables
import Rucbase.Storage.SharedPool
import Rucbase.Storage.SharedPoolProof
import Rucbase.Storage.PageStore
import Rucbase.Storage.PoolFile
import Rucbase.Storage.PoolReopen
import Rucbase.Storage.FileCreation
import Rucbase.Record.Bitmap
import Rucbase.Record.RmPage
import Rucbase.Lib.Chain
import Rucbase.Record.RmFileHandle
import Rucbase.Record.RmInvariant
import Rucbase.Record.RmRecords
import Rucbase.Record.RmRuns
import Rucbase.Record.RmOnPool
import Rucbase.Record.RmReopen
import Rucbase.Record.RmDeadRids
import Rucbase.Record.RmRecovery
import Rucbase.Record.RmScan
import Rucbase.Record.RmScanRuns
import Rucbase.Lib.FirstHit
import Rucbase.Record.CharBitmap
import Rucbase.Lib.Bisect
import Rucbase.Index.IxCompare
import Rucbase.Index.IxNode
import Rucbase.Lib.Slots
import Rucbase.Lib.SortedSearch
import Rucbase.Index.IxNodeHandle
import Rucbase.Index.IxNodeMap
import Rucbase.Index.IxNodeKeys
import Rucbase.Index.IxIndexHandle
import Rucbase.Lib.Layers
import Rucbase.Index.IxCalls
import Rucbase.Index.IxView
import Rucbase.Index.IxTree
import Rucbase.Lib.Blocks
import Rucbase.Index.IxInsert
import Rucbase.Index.IxSound
import Rucbase.Index.IxPairs
import Rucbase.Index.IxDelete
import Rucbase.Index.IxRebalance
import Rucbase.Index.IxRemove
import Rucbase.Index.IxWellFormed
import Rucbase.Index.IxUpdates
import Rucbase.Index.IxRouting
import Rucbase.Index.IxScan
import Rucbase.Index.Traversals
import Rucbase.Index.IxEntries
import Rucbase.Index.IxFirstKeys
import Rucbase.Index.IxMirror
import Rucbase.Index.IxRuns
import Rucbase.Index.IxPins
import Rucbase.Lib.Lockstep
import Rucbase.Index.OutOfFrames
import Rucbase.Index.IxEmptied
import Rucbase.Index.IxMinimal
import Rucbase.Lib.Holding
import Rucbase.Index.IxAllocation
import Rucbase.Index.IxSessions
import Rucbase.Lib.Scanner
import Rucbase.Parser.Lex
import Rucbase.Parser.LexHistory
import Rucbase.Parser.CreateTable
import Rucbase.System.SmManager
import Rucbase.Lib.TextStream
import Rucbase.System.SmMeta
import Rucbase.System.RecordLayout
import Rucbase.System.FailedCalls
import Rucbase.Execution.ExecutionManager
import Rucbase.Lib.Appender
import Rucbase.Execution.RecordPrinter
import Rucbase.Execution.RowDecoding
import Rucbase.Execution.SeqScan
import Rucbase.Execution.PredicatePushDown
import Rucbase.Execution.ConditionMeaning
import Rucbase.Recovery.LogRecord
import Rucbase.Common.RwLatch
import Rucbase.Common.RwLatchProof
import Rucbase.Common.RwLatchWaits
import Rucbase.Lib.ShiftReduce
import Rucbase.Parser.Ast
import Rucbase.Parser.Grammar
import Rucbase.Parser.Yyparse
import Rucbase.Parser.Tables
import Rucbase.Parser.Actions
import Rucbase.Parser.YyparseProof
import Rucbase.Parser.TokenText
import Rucbase.Parser.RequestText
import Rucbase.Execution.WhereClause
import Rucbase.Execution.WhereClauseProof
import Rucbase.Execution.QueryPlan
import Rucbase.System.OpenDb
import Rucbase.System.OpenDbProof
import Rucbase.System.CatalogRuns
