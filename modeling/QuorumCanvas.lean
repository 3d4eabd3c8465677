import QuorumCanvas.ElectionSafety
import QuorumCanvas.Applied
import QuorumCanvas.Progress
import QuorumCanvas.ReadIndex
import QuorumCanvas.FrontDoor
import QuorumCanvas.GatewayFrames
import QuorumCanvas.FullLog
import QuorumCanvas.Evolution
import QuorumCanvas.Indices
import QuorumCanvas.JoinRace
import QuorumCanvas.OptimisticEdits
import QuorumCanvas.AckedWrites
import QuorumCanvas.RawRuns
import QuorumCanvas.VoteStability
import QuorumCanvas.BoardCopies
import QuorumCanvas.SnapshotBacking
import QuorumCanvas.SnapshotSuffix
import QuorumCanvas.Batches
import QuorumCanvas.ReplicationSlots
import QuorumCanvas.Cursors
import QuorumCanvas.LeaderHints
import QuorumCanvas.CatchUps
import QuorumCanvas.MatchIndices
import QuorumCanvas.AfterStop
import QuorumCanvas.UncompactedLog
import QuorumCanvas.Membership
import QuorumCanvas.Tokens
import QuorumCanvas.BoardReads
import QuorumCanvas.CanvasRedraw
import QuorumCanvas.UseWebSocket
import QuorumCanvas.Validation
import QuorumCanvas.Recovery
import QuorumCanvas.LogRepair
import QuorumCanvas.Submissions
import QuorumCanvas.CommitScan
import QuorumCanvas.JsonText
import QuorumCanvas.Utf8
import QuorumCanvas.WriteAheadLog
import QuorumCanvas.BodyLimit
import QuorumCanvas.ModestWrites
import QuorumCanvas.JsonRecords
import QuorumCanvas.StoredSnapshots
import QuorumCanvas.Wire
import QuorumCanvas.DataDir
import QuorumCanvas.KnownLeaders
import QuorumCanvas.ClusterStatus
import QuorumCanvas.Electable
import QuorumCanvas.LogMatching
import QuorumCanvas.Origins
import QuorumCanvas.CatchingUp
import QuorumCanvas.LinearReads
import QuorumCanvas.UndoRedo
import QuorumCanvas.UseDrawing
import QuorumCanvas.ElectionTimer
