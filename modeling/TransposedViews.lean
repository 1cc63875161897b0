import TransposedViews.Workspace
import TransposedViews.Workspace.Vectors
import TransposedViews.Proofs.SparseVector
import TransposedViews.Proofs.SparseLines
import TransposedViews.Proofs.Coordinate
import TransposedViews.Proofs.Dense
import TransposedViews.Proofs.Matrix
import TransposedViews.Proofs.Construction
import TransposedViews.Proofs.Reachable
import TransposedViews.Proofs.EntryMap
import TransposedViews.Proofs.Run
import TransposedViews.Proofs.Mirror
import TransposedViews.Proofs.Frame
import TransposedViews.Proofs.Parity
import TransposedViews.Proofs.Decoding
import TransposedViews.Proofs.Occurrence
import TransposedViews.Proofs.Source
import TransposedViews.Proofs.LineDocument
import TransposedViews.Proofs.Workspace
import TransposedViews.Proofs.RoundTrip
import TransposedViews.Proofs.Enumeration
import TransposedViews.Proofs.Access
import TransposedViews.Proofs.Equality
import TransposedViews.Proofs.Overwriting
import TransposedViews.Proofs.Grouping
import TransposedViews.Proofs.Layout
import TransposedViews.Proofs.Storage
import TransposedViews.Proofs.Rewriting
import TransposedViews.Proofs.LineWriting
import TransposedViews.Proofs.WriteTraversals
import TransposedViews.Proofs.Writes
import TransposedViews.Proofs.LineAccounts
import TransposedViews.Proofs.IndexMap
import TransposedViews.Proofs.DenseSize
import TransposedViews.Proofs.CoordinateLines
import TransposedViews.Proofs.DenseTables
import TransposedViews.Proofs.DenseAccess
import TransposedViews.Proofs.TripletChecks
import TransposedViews.Proofs.Cancellation
import TransposedViews.Proofs.Generation
import TransposedViews.Proofs.SizeHints
import TransposedViews.Proofs.HintReplies
import TransposedViews.Proofs.TraversalHints
import TransposedViews.Proofs.OutsidePositions
import TransposedViews.Proofs.Flattening
