import Vantage.Breach
import Vantage.Slots
import Vantage.Point
import Vantage.Shape
import Vantage.Shape.Lemmas
import Vantage.Fault
import Vantage.Metric
import Vantage.Cuts
import Vantage.Keyed
import Vantage.Draw
import Vantage.Hit
import Vantage.Branch
import Vantage.Leaf
import Vantage.Node
import Vantage.Subtree
import Vantage.Placement
import Vantage.Words
import Vantage.Words.Lemmas
import Vantage.Stream
import Vantage.Snapshot
import Vantage.Snapshot.Codec
import Vantage.Registry
import Vantage.Tree.Basic
import Vantage.Tree.Flush
import Vantage.Tree.Search
import Vantage.Tree.Census
import Vantage.Tree.Operations
import Vantage.InPlace
import Vantage.Journal
import Vantage.Linked.Basic
import Vantage.Linked.Reading
import Vantage.Linked.Operations
import Vantage.Decimal.Integer
import Vantage.Decimal.Rounding
import Vantage.Decimal.Numeral
import Vantage.Decimal.Shortest
import Vantage.Text.Blank
import Vantage.Text.Extending
import Vantage.Text.Ignorable
import Vantage.Text.Unprintable
import Vantage.Text.Quoted
import Vantage.Index.Fault
import Vantage.Index.Reading
import Vantage.Index.Mint
import Vantage.Index.Basic
import Vantage.Proofs.Binary64.Packing
import Vantage.Proofs.Binary64.Rounding
import Vantage.Proofs.Binary64.Ticks
import Vantage.Proofs.Binary64.Sums
import Vantage.Proofs.Binary64.Naturals
import Vantage.Proofs.Binary64.Patterns
import Vantage.Proofs.Binary64.Nearest
import Vantage.Proofs.Binary64.SumOrder
import Vantage.Proofs.Binary64.Means
import Vantage.Proofs.Binary64.Multiples
import Vantage.Proofs.BitPositions
import Vantage.Proofs.MetricLaws
import Vantage.Proofs.SlotStore
import Vantage.Proofs.KeyedLists
import Vantage.Proofs.Outcomes
import Vantage.Proofs.BucketCuts
import Vantage.Proofs.Routing
import Vantage.Proofs.NodeIntake
import Vantage.Proofs.Dividing
import Vantage.Proofs.Subtrees
import Vantage.Proofs.Settling
import Vantage.Proofs.TreeInvariant
import Vantage.Proofs.Flushing
import Vantage.Proofs.Searching
import Vantage.Proofs.Runs
import Vantage.Proofs.Growing
import Vantage.Proofs.Rounds
import Vantage.Proofs.Restoring
import Vantage.Proofs.Ledger
import Vantage.Proofs.Atomicity
import Vantage.Proofs.HitOrder
import Vantage.Proofs.Pruning
import Vantage.Proofs.GapTable
import Vantage.Proofs.LinearScan
import Vantage.Proofs.Accounting
import Vantage.Proofs.LivePoints
import Vantage.Proofs.FrozenBranches
import Vantage.Proofs.SearchCost
import Vantage.Proofs.InPlace
import Vantage.Proofs.Undoing
import Vantage.Proofs.LinkedNodes
import Vantage.Proofs.LinkedServing
import Vantage.Proofs.LinkedPlacing
import Vantage.Proofs.LinkedReading
import Vantage.Proofs.LinkedRuns
import Vantage.Proofs.FailedFlushes
import Vantage.Proofs.WiderRadius
import Vantage.Proofs.RoutedPoints
import Vantage.Proofs.Refusals
import Vantage.Proofs.LeafCapacity
import Vantage.Proofs.SavedForm
import Vantage.Proofs.WrittenForm
import Vantage.Proofs.Replaying
import Vantage.Proofs.SavedIndex
import Vantage.Proofs.TornWrites
import Vantage.Proofs.UsableShapes
import Vantage.Proofs.Collating
import Vantage.Proofs.Quantiles
import Vantage.Proofs.SlotHistory
import Vantage.Proofs.GeneratedIds
import Vantage.Proofs.Digits
import Vantage.Proofs.WholeNumbers
import Vantage.Proofs.Binary64.NearestPatterns
import Vantage.Proofs.Binary64.CorrectRounding
import Vantage.Proofs.Numerals
import Vantage.Proofs.Radii
