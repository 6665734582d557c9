import PedraDb.Group.NoTrace
import PedraDb.Pipeline.Fence
import PedraDb.Pipeline.Occ
import PedraDb.Wal.Survival
import PedraDb.Layers.Writers
import PedraDb.Cache.Answers
import PedraDb.Cache.Shard
import PedraDb.Cache.Blocks
import PedraDb.Durable.Reopen
import PedraDb.Families.TxnIterator
import PedraDb.History.Restore
import PedraDb.Feed.Recovery
import PedraDb.Durable.FilterReads
import PedraDb.Wal.Torn
import PedraDb.Merge.Streaming
import PedraDb.Merge.Visible
import PedraDb.Sst.BulkWriter
import PedraDb.Sst.RawBlocks
import PedraDb.Levels.Undo
import PedraDb.Levels.Spans
import PedraDb.Wal.Frontier
import PedraDb.Wal.Archives
import PedraDb.Packed
import PedraDb.Vlog
import PedraDb.Families.Tags
