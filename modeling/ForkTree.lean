import ForkTree.Constraint.Expr
import ForkTree.Log.Grammar
import ForkTree.Main
import ForkTree.Proofs.ArenaMap
import ForkTree.Proofs.ClosedLog
import ForkTree.Proofs.Compression
import ForkTree.Proofs.ExportHistory
import ForkTree.Proofs.FailedAppends
import ForkTree.Proofs.KeyLife
import ForkTree.Proofs.LiveMarks
import ForkTree.Proofs.LiveReplay
import ForkTree.Proofs.LogGrammar
import ForkTree.Proofs.PathLinks
import ForkTree.Proofs.Register
import ForkTree.Proofs.ReplayHistory
import ForkTree.Proofs.Search
import ForkTree.Proofs.SearchCompression
import ForkTree.Proofs.SegmentOrder
import ForkTree.Proofs.ShapeMarks
import ForkTree.Proofs.SnapshotMap
import ForkTree.Proofs.StoppedCalls
import ForkTree.Proofs.Unrecorded
import ForkTree.Replay.History
import ForkTree.Replay.Unfold
import ForkTree.Storage.Memory
import ForkTree.Tracker
import ForkTree.Tree.RandomPath
import ForkTree.Tree.Unfold
import ForkTree.Proofs.ReplayWalk
import ForkTree.Proofs.ReplayStats
import ForkTree.Proofs.ExportMerge
import ForkTree.Proofs.SnapshotRoundTrip
import ForkTree.Proofs.KeyReuse
import ForkTree.Proofs.ExactMarks
import ForkTree.Proofs.RemovalEffect
import ForkTree.Proofs.InfixNegation
import ForkTree.Proofs.InfixPhrases
import ForkTree.Proofs.DamagedLog
import ForkTree.Proofs.SegmentSizes
import ForkTree.Proofs.MergeLaws
import ForkTree.Proofs.SnapshotIndex
import ForkTree.Proofs.ReplayReordering
import ForkTree.Proofs.ExportStream
import ForkTree.Proofs.ReplayPictures
import ForkTree.Proofs.ConstraintBlanks
import ForkTree.Proofs.ArenaRequests
import ForkTree.Proofs.ReadingBounds
import ForkTree.Proofs.CheckVerdict
