import Linkage.Analysis
import Linkage.ClassPair
import Linkage.Cluster
import Linkage.Cluster.Average
import Linkage.Cluster.Merge
import Linkage.Cluster.Record
import Linkage.Cluster.Summary
import Linkage.CommandLine.Options
import Linkage.CommandLine.Run
import Linkage.Config
import Linkage.Counts
import Linkage.Decimal.Layout
import Linkage.Decimal.Numeral
import Linkage.Decimal.Shortest
import Linkage.Error
import Linkage.Event
import Linkage.Event.Filter
import Linkage.Event.Line
import Linkage.Event.Source
import Linkage.Files.Path
import Linkage.Files.Table
import Linkage.Files.Tree
import Linkage.Json.Fault
import Linkage.Json.Reader
import Linkage.Json.Shape
import Linkage.Json.Value
import Linkage.Main
import Linkage.Matrix
import Linkage.Proofs.Scale.Order
import Linkage.Ranking
import Linkage.Report.Graph
import Linkage.Report.Saved
import Linkage.Scale
import Linkage.Tally
import Linkage.Text.Blank
import Linkage.Text.Bytes
import Linkage.Text.Quoted
import Linkage.Text.Split
import Linkage.Proofs.Scale.Magnitude
import Linkage.Proofs.Cluster.Average
import Linkage.Proofs.Cluster.Choice
import Linkage.Proofs.Cluster.Connected
import Linkage.Proofs.Cluster.Threshold
import Linkage.Proofs.Matrix.Canonical
import Linkage.Proofs.Tally.Counting
import Linkage.Proofs.Text.ByteOrder
import Linkage.Proofs.Tally.Build
import Linkage.Proofs.Tally.Calls
import Linkage.Proofs.Scale.Fraction
import Linkage.Proofs.Cluster.Descent
import Linkage.Proofs.Cluster.Extremes
import Linkage.Proofs.Matrix.Named
import Linkage.Proofs.Cluster.Building
import Linkage.Proofs.Cluster.Cohesion
import Linkage.Proofs.Cluster.Ordered
import Linkage.Proofs.Matrix.Part
import Linkage.Proofs.Cluster.Parts
import Linkage.Proofs.Matrix.Renamed
import Linkage.Proofs.Matrix.Repeated
import Linkage.Proofs.Analysis
import Linkage.Proofs.Matrix.Entries
import Linkage.Proofs.Matrix.Conservation
import Linkage.Proofs.Event.Line
import Linkage.Proofs.Report.Saved
import Linkage.Proofs.Event.Formats
import Linkage.Proofs.ClassPair
import Linkage.Proofs.Accounting
import Linkage.Proofs.Checked.Analysis
import Linkage.Proofs.Cluster.Strongest
import Linkage.Proofs.Cluster.Summary
import Linkage.Proofs.CommandLine.Run
import Linkage.Proofs.Event.Reading
import Linkage.Proofs.Event.Filter
import Linkage.Proofs.Ranking.Sorted
import Linkage.Proofs.Scale.Ranking
import Linkage.Proofs.Cluster.Central
import Linkage.Proofs.Matrix.Strongest
import Linkage.Proofs.Files.Directories
import Linkage.Proofs.Report.Writing
import Linkage.Proofs.Tally.State
import Linkage.Proofs.Config
import Linkage.Proofs.Report.Graph
import Linkage.Proofs.Report.Assignments
