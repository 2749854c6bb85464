import UrBackup.Lib.OrderedMap
import UrBackup.Lib.ByteOrder
import UrBackup.Lib.Run
import UrBackup.Lib.Loop
import UrBackup.Lib.ReadFile
import UrBackup.Lib.ZeroStuffing
import UrBackup.FileIndex.Key
import UrBackup.FileIndex.Lookup
import UrBackup.FileIndex.Writer
import UrBackup.FileIndex.PreferClient
import UrBackup.Files.FilesDao
import UrBackup.FileIndex.Create
import UrBackup.Files.Chains
import UrBackup.Files.Store
import UrBackup.Files.StoreInvariant
import UrBackup.TreeDiff.TreeNode
import UrBackup.TreeDiff.TreeDiff
import UrBackup.TreeDiff.Frame
import UrBackup.TreeDiff.Soundness
import UrBackup.TreeDiff.Matching
import UrBackup.TreeDiff.Reuse
import UrBackup.Patch.ChunkPatcher
import UrBackup.Patch.ApplyPatch
import UrBackup.Patch.PatchFile
import UrBackup.Patch.LoopRule
import UrBackup.Patch.OldData
import UrBackup.Patch.Delivery
import UrBackup.Net.TcpStack
import UrBackup.Images.RemoveImage
import UrBackup.Files.RemoveBackup
import UrBackup.Files.RemoveBackupLedger
import UrBackup.Files.RemoveBackupRuns
import UrBackup.Crypto.AESGCM
import UrBackup.Crypto.Escaping
import UrBackup.Crypto.Unescaping
import UrBackup.Crypto.Framing
import UrBackup.Crypto.Nonces
import UrBackup.Lib.FileSystem
import UrBackup.Lib.LinkTree
import UrBackup.Links.ServerLinkDao
import UrBackup.Links.LinkDirectoryPool
import UrBackup.Links.Replay
import UrBackup.Lib.Decimal
import UrBackup.FileList.FileListUtils
import UrBackup.FileList.TreeReader
import UrBackup.FileList.Scan
import UrBackup.FileList.RoundTrip
import UrBackup.Lib.ByteStore
import UrBackup.FSImage.CompressedFile
import UrBackup.FSImage.CompressedBlocks
import UrBackup.FSImage.CompressedTurns
import UrBackup.FSImage.CompressedRuns
import UrBackup.Lib.BitStore
import UrBackup.FSImage.VHDFile
import UrBackup.FSImage.VHDBlocks
import UrBackup.Backup.FileThreads
import UrBackup.Backup.MaxFileId
import UrBackup.Backup.FileNames
import UrBackup.Backup.FullFileBackup
import UrBackup.Backup.Containment
import UrBackup.Images.Cleanup
import UrBackup.Images.CleanupChecks
import UrBackup.Images.Retention
import UrBackup.Images.ImageVersion
import UrBackup.Internet.Connector
import UrBackup.Internet.Service
import UrBackup.Internet.Worker
import UrBackup.Internet.Lists
import UrBackup.Internet.Authentication
import UrBackup.Internet.HandOut
import UrBackup.Download.Queue
import UrBackup.Download.DownloadThread
import UrBackup.Download.Records
import UrBackup.Download.ClientLists
import UrBackup.Download.GetFile
import UrBackup.Download.Reply
import UrBackup.Download.FileClient
import UrBackup.Download.Pipelining
import UrBackup.Lib.CheckedStream
import UrBackup.Restore.RestoreCleanup
import UrBackup.Client.BackupCounters
import UrBackup.Client.ClientLoop
import UrBackup.Client.PostBackup
import UrBackup.Client.GroupChecks
import UrBackup.Client.ImageGroups
import UrBackup.Files.UpdateStats
import UrBackup.Files.StorageUsage
import UrBackup.Files.Holders
import UrBackup.Files.StatsAddUp
import UrBackup.Images.ImageStream
import UrBackup.Images.ImageReads
import UrBackup.Images.NextBlock
import UrBackup.Images.SentVolume
import UrBackup.Images.Gaps
import UrBackup.Images.ImageSync
import UrBackup.Images.ImageMessages
import UrBackup.Images.ImageRuns
import UrBackup.Images.ImageContent
import UrBackup.Images.ImageReconnect
import UrBackup.Images.ReceiveLoop
import UrBackup.Continuous.CompactChanges
import UrBackup.Continuous.Sequences
import UrBackup.Images.PendingImages
import UrBackup.Images.MarkedImages
import UrBackup.Images.DeleteImage
import UrBackup.Web.BackupAccess
import UrBackup.Web.CreateZip
import UrBackup.Web.BackupTree
import UrBackup.Web.TokenAccess
import UrBackup.Web.TokenDownloads
import UrBackup.TreeDiff.Exact
import UrBackup.FileIndex.Iteration
import UrBackup.FileIndex.MapGrowth
import UrBackup.Lib.LinkedChain
import UrBackup.Files.FileSearch
import UrBackup.Images.ImageSizes
import UrBackup.Files.CopyFile
import UrBackup.Files.ReplaceFile
import UrBackup.Images.BufferFile
import UrBackup.Images.BufferedWriter
import UrBackup.Download.Resume
import UrBackup.Download.VerifiedData
import UrBackup.Cleanup.FileBackups
import UrBackup.Cleanup.CleanupEnds
import UrBackup.FSImage.CowFile
import UrBackup.FSImage.CowBitmap
import UrBackup.FSImage.NarrowRange
import UrBackup.Hash.Adler32
import UrBackup.Hash.TreeHash
import UrBackup.Hash.FedBytes
import UrBackup.Hash.TreeLeaf
import UrBackup.FSImage.FailedLoads
import UrBackup.Patch.PatchEnds
import UrBackup.FSImage.VHDReads
import UrBackup.FSImage.VHDLayout
import UrBackup.FSImage.VHDTables
import UrBackup.FSImage.VHDHeaders
import UrBackup.FSImage.VHDCreated
import UrBackup.FSImage.VHDRuns
import UrBackup.Web.LdapRights
import UrBackup.Files.ExtentIterator
import UrBackup.Net.CompressedPipe
import UrBackup.Net.CompressedReads
import UrBackup.Net.CompressedLossless
import UrBackup.Download.FolderTimes
import UrBackup.Download.FolderTimesRuns
import UrBackup.Net.ChunkFraming
import UrBackup.Patch.Replayed
import UrBackup.Net.PipeFileBase
import UrBackup.Net.PipeReads
import UrBackup.Metadata.FileMetadataPipe
import UrBackup.Metadata.MetadataStream
import UrBackup.Metadata.StreamSteps
import UrBackup.Metadata.StreamRuns
import UrBackup.Metadata.ApplyMetadata
import UrBackup.Metadata.MetadataSaved
import UrBackup.Cleanup.AutomaticArchive
import UrBackup.Images.DynamicDisks
import UrBackup.Download.Issues
import UrBackup.Download.QueueSize
import UrBackup.Download.QueueOrder
import UrBackup.Download.SnapshotWindows
import UrBackup.Data.Varint
import UrBackup.Data.Messages
import UrBackup.Metadata.MetadataNames
import UrBackup.Metadata.MetadataFile
import UrBackup.Http.Multipart
import UrBackup.Lib.Shell
import UrBackup.Client.Scripts
import UrBackup.Server.ThreadPool
