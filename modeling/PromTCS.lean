import PromTCS.Base.Coding
import PromTCS.Base.Varint
import PromTCS.Chunk.BitReader
import PromTCS.Chunk.BitStream
import PromTCS.Chunk.DeleteIterator
import PromTCS.Chunk.XORAppender
import PromTCS.Chunk.XORChunk
import PromTCS.Chunk.XORIterator
import PromTCS.Db.HandleInsert
import PromTCS.Db.HandleQuery
import PromTCS.Head.FlushDb
import PromTCS.Head.FlushSplit
import PromTCS.Head.ForwardIndex
import PromTCS.Head.IdCapacity
import PromTCS.Head.LabelArena
import PromTCS.Head.Labels
import PromTCS.Head.Metadata
import PromTCS.Head.Recover
import PromTCS.Head.Select
import PromTCS.Head.SeriesIdentity
import PromTCS.Head.TreeHead
import PromTCS.Head.TreeMemSeries
import PromTCS.Head.Watermark
import PromTCS.Index.Migration
import PromTCS.Index.MigrationCount
import PromTCS.Index.PostingsCursor
import PromTCS.Index.PostingsSet
import PromTCS.Index.SubtractionPostings
import PromTCS.Index.ThmapPostings
import PromTCS.Index.TreeIntersect
import PromTCS.Index.Uint32BEPostings
import PromTCS.Lib.InPlace
import PromTCS.Lib.Iteration
import PromTCS.Lib.LastUnion
import PromTCS.Lib.Listing
import PromTCS.Lib.PrefixMap
import PromTCS.Lib.RangeScan
import PromTCS.Lib.RewriteFiles
import PromTCS.Lib.RowMajor
import PromTCS.Lib.SeekBack
import PromTCS.Lib.Spill
import PromTCS.Lib.TieredIndex
import PromTCS.Lib.Updates
import PromTCS.Lib.Watermark
import PromTCS.Lsm.CompactionSafety
import PromTCS.Lsm.CompactionTree
import PromTCS.Lsm.DbMap
import PromTCS.Lsm.Flush
import PromTCS.Lsm.InternalKey
import PromTCS.Lsm.Overlapping
import PromTCS.Lsm.Read
import PromTCS.Lsm.Recover
import PromTCS.Lsm.TableFailures
import PromTCS.Lsm.TableFile
import PromTCS.Lsm.Version
import PromTCS.Lsm.VersionBuilder
import PromTCS.Lsm.VersionSet
import PromTCS.Mem.ArtArrays
import PromTCS.Mem.ArtDelete
import PromTCS.Mem.ArtInsert
import PromTCS.Mem.ArtLayout
import PromTCS.Mem.ArtMap
import PromTCS.Mem.ArtPrefix
import PromTCS.Mem.ArtResize
import PromTCS.Mem.ArtRuns
import PromTCS.Mem.ArtTree
import PromTCS.Mem.IndirectionManager
import PromTCS.Querier.DiskPartitions
import PromTCS.Querier.LevelIterators
import PromTCS.Querier.LevelValues
import PromTCS.Querier.MergeSeriesIterator
import PromTCS.Querier.SeriesSeek
import PromTCS.Querier.SeriesSet
import PromTCS.Querier.SlabArrayIterator
import PromTCS.Querier.TreeHeadIterator
import PromTCS.TreeSeries.Batch
import PromTCS.TreeSeries.EagerBatch
import PromTCS.TreeSeries.Folding
import PromTCS.TreeSeries.Index
import PromTCS.TreeSeries.Keys
import PromTCS.TreeSeries.Lifecycle
import PromTCS.TreeSeries.Put
import PromTCS.TreeSeries.PutRuns
import PromTCS.TreeSeries.ReadBuffers
import PromTCS.TreeSeries.Scan
import PromTCS.TreeSeries.SlabTable
import PromTCS.TreeSeries.SlotLookup
import PromTCS.TreeSeries.Stocked
import PromTCS.TreeSeries.Store
import PromTCS.TreeSeries.WriteTasks
import PromTCS.Wal.Batching
import PromTCS.Wal.CleanSampleLog
import PromTCS.Wal.Cleaning
import PromTCS.Wal.GorillaRecord
import PromTCS.Wal.PWal
import PromTCS.Wal.RecoverSerial
import PromTCS.Wal.TreeRecords
import PromTCS.Chunk.BitItems
import PromTCS.Mem.IndirectionMapping
