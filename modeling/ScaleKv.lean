import ScaleKv.TxnKv.Scans
import ScaleKv.TxnKv.SnapshotIsolation
import ScaleKv.TxnKv.QuorumRecovery
import ScaleKv.TxnKv.CheckpointRecovery
import ScaleKv.TxnKv.ReplicaOrder
import ScaleKv.TxnKv.FailedCommits
import ScaleKv.TxnKv.DamagedReplica
import ScaleKv.Storage.PageFile
import ScaleKv.Storage.SlotRedo
import ScaleKv.Storage.CrashDurability
import ScaleKv.Storage.MvccSnapshots
import ScaleKv.Storage.PageFence
import ScaleKv.Storage.TornTail
import ScaleKv.BTree.Reads
import ScaleKv.BTree.RemovalLoss
import ScaleKv.Compute.PurgeLimit
import ScaleKv.Compute.QuorumProgress
import ScaleKv.Compute.PageProvider
import ScaleKv.Compute.ReadFailures
import ScaleKv.Compute.ReaperCommit
import ScaleKv.Compute.IntentOwners
import ScaleKv.Compute.QuorumDurable
import ScaleKv.Compute.Dispatch
import ScaleKv.Compute.PostingPages
import ScaleKv.Compute.HistoryList
import ScaleKv.Compute.PostingLog
