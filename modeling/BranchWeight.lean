import BranchWeight.Fault
import BranchWeight.Graph.Link
import BranchWeight.Graph.Reach
import BranchWeight.Graph.SpanIndex
import BranchWeight.Graph.Vertex
import BranchWeight.Graph.Weight
import BranchWeight.Main
import BranchWeight.Metric.Measures
import BranchWeight.Metric.Order
import BranchWeight.Metric.Registry
import BranchWeight.Metric.Standard
import BranchWeight.Number.Binary64
import BranchWeight.Number.Division
import BranchWeight.Number.HalfUp
import BranchWeight.Number.Power
import BranchWeight.Number.Shortest
import BranchWeight.OrderedMap
import BranchWeight.Packing.Archive
import BranchWeight.Packing.Bzip
import BranchWeight.Packing.Bzip.Lengths
import BranchWeight.Packing.Bzip.Rotations
import BranchWeight.Packing.Bzip.Runs
import BranchWeight.Packing.Bzip.Symbols
import BranchWeight.Packing.Bzip.Tables
import BranchWeight.Packing.Checksum
import BranchWeight.Packing.Gzip
import BranchWeight.Packing.Layout
import BranchWeight.Packing.Xz
import BranchWeight.Packing.Zip
import BranchWeight.Proofs.AllOrNothing
import BranchWeight.Proofs.Branches
import BranchWeight.Proofs.Comments
import BranchWeight.Proofs.Construction
import BranchWeight.Proofs.DecimalRounding
import BranchWeight.Proofs.Decoding
import BranchWeight.Proofs.Delivery
import BranchWeight.Proofs.DocumentOrder
import BranchWeight.Proofs.Encoding
import BranchWeight.Proofs.Forward
import BranchWeight.Proofs.GatheredSources
import BranchWeight.Proofs.GraphLaw
import BranchWeight.Proofs.Lookup
import BranchWeight.Proofs.MetricAgreement
import BranchWeight.Proofs.MoreEdges
import BranchWeight.Proofs.NearestDouble
import BranchWeight.Proofs.NumberText
import BranchWeight.Proofs.NumberedReach
import BranchWeight.Proofs.OrderComparison
import BranchWeight.Proofs.OrderRounding
import BranchWeight.Proofs.Reachability
import BranchWeight.Proofs.ReadBack
import BranchWeight.Proofs.Reformatting
import BranchWeight.Proofs.Registrations
import BranchWeight.Proofs.Relinking
import BranchWeight.Proofs.Rerun
import BranchWeight.Proofs.RoundingRange
import BranchWeight.Proofs.SharedMetrics
import BranchWeight.Proofs.ShortestDecimal
import BranchWeight.Proofs.SortedReport
import BranchWeight.Proofs.SourceMetrics
import BranchWeight.Proofs.Traversal
import BranchWeight.Proofs.TwoReadings
import BranchWeight.Proofs.VertexOrder
import BranchWeight.Proofs.Weighing
import BranchWeight.Proofs.WellSpanned
import BranchWeight.Report.Csv
import BranchWeight.Report.Dialog
import BranchWeight.Report.Packing
import BranchWeight.Report.Table
import BranchWeight.Report.Writing
import BranchWeight.Source.Address
import BranchWeight.Source.Disk
import BranchWeight.Source.Grammar
import BranchWeight.Source.Home
import BranchWeight.Source.Host
import BranchWeight.Source.Listing
import BranchWeight.Source.Outlines
import BranchWeight.Source.Path
import BranchWeight.Source.Place
import BranchWeight.Source.SystemError
import BranchWeight.Text.Blank
import BranchWeight.Text.Newlines
import BranchWeight.Text.Percent
import BranchWeight.Text.Pieces
import BranchWeight.Text.Printable
import BranchWeight.Text.Quoted
import BranchWeight.Text.Utf8
import BranchWeight.Tree.Content
import BranchWeight.Tree.Kind
import BranchWeight.Tree.Node
import BranchWeight.Tree.Outline
import BranchWeight.Tree.Span
