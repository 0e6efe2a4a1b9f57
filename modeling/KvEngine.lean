import KvEngine.Foundations.Layers
import KvEngine.Memtable.MemTableSpec
import KvEngine.Sstable.ReaderSpec
import KvEngine.Wal.Recovery
import KvEngine.Engine.Tables
import KvEngine.Engine.Session
import KvEngine.Engine.Stored
import KvEngine.Engine.Reached
import KvEngine.Engine.OpenSpec
import KvEngine.Engine.ReadSpec
import KvEngine.Properties.LastWriteWins
import KvEngine.Properties.CompactionSchedule
import KvEngine.Properties.CompactionVisibility
import KvEngine.Properties.LogRecovery
import KvEngine.Properties.UnreadableBlocks
import KvEngine.Properties.TableFiles
import KvEngine.Properties.CacheTransparency
import KvEngine.Properties.ScanAgreement
import KvEngine.Properties.LsmStructure
import KvEngine.Properties.SequenceNumbers
import KvEngine.Properties.BatchAtomicity
import KvEngine.Properties.Reopening
import KvEngine.Properties.RepairedDirectory
import KvEngine.Properties.LogCoverage
import KvEngine.Engine.FailedFlush
import KvEngine.Properties.ManifestFormat
import KvEngine.Properties.BlockFormat
import KvEngine.Properties.MemtableMap
import KvEngine.Properties.MalformedTables
import KvEngine.Properties.FlushVisibility
import KvEngine.Properties.PrefixScans
import KvEngine.Properties.SparedKeys
import KvEngine.Properties.Expiry
import KvEngine.Properties.OpaqueValues
import KvEngine.Properties.BatchEquivalence
import KvEngine.Properties.SnapshotIsolation
import KvEngine.Properties.MergeOrder
import KvEngine.Properties.LruCache
import KvEngine.Properties.BatchArguments
import KvEngine.Properties.TableOffsets
import KvEngine.Properties.FreezeThreshold
import KvEngine.Properties.ExpiringScans
import KvEngine.Foundations.SharedLock
import KvEngine.Foundations.Weight
import KvEngine.Sstable.FileSize
import KvEngine.Engine.History
import KvEngine.Engine.Handle
import KvEngine.Engine.Crash
import KvEngine.Engine.Growth
import KvEngine.Engine.Success
import KvEngine.Engine.Room
import KvEngine.Engine.FailedCalls
import KvEngine.Properties.Durability
import KvEngine.Properties.CutShort
import KvEngine.Properties.CrashSafety
import KvEngine.Properties.TwoLevels
import KvEngine.Properties.SharedHandle
import KvEngine.Properties.Availability
import KvEngine.Properties.FaultTolerance
import KvEngine.Properties.FailedFlushes
import KvEngine.Properties.CrashAtomicity
import KvEngine.Properties.DirectoryContents
