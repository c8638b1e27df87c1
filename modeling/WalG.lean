import WalG.Backup.IncrementSafety
import WalG.Backup.IncrementVerification
import WalG.Backup.RatingCompose
import WalG.Backup.RatingQueue
import WalG.Backup.RatingScan
import WalG.Backup.RelationPath
import WalG.Backup.TarBallConservation
import WalG.Blob.Garbage
import WalG.Blob.Lease
import WalG.Blob.LiveData
import WalG.Copy.Paths
import WalG.Copy.Tickets
import WalG.Crypto.KeyHeader
import WalG.Crypto.Truncation
import WalG.Delete.Permanence
import WalG.Delete.RelatedBackups
import WalG.Delete.RetainAfter
import WalG.Delete.RetainCount
import WalG.Delta.LengthFields
import WalG.Delta.PushRuns
import WalG.Extract.ExtractAll
import WalG.Mongo.CorruptArchive
import WalG.Mongo.FilterUUIDs
import WalG.Mongo.IndexBuilds
import WalG.Mongo.OplogReplay
import WalG.Mongo.Retained
import WalG.Mongo.SequenceSearch
import WalG.Mongo.Transactions
import WalG.MySQL.PermanentBackups
import WalG.MySQL.PushHistory
import WalG.MySQL.Recovery
import WalG.Receive.HistoryFile
import WalG.Receive.Reassembly
import WalG.Restore.ChainRestore
import WalG.Restore.Retry
import WalG.Restore.SkipRedundant
import WalG.Tarball.BackupName
import WalG.Tarball.Completeness
import WalG.Verify.EarliestBackup
import WalG.Verify.StoredSegments
import WalG.Wal.Metadata
import WalG.XLog.RecordEncoding
