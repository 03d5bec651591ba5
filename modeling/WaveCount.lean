import WaveCount.Advice.Basic
import WaveCount.Analysis.Basic
import WaveCount.Analysis.Environment
import WaveCount.Analysis.Settings
import WaveCount.Calendar.Instant
import WaveCount.Calendar.Text
import WaveCount.Channel.Basic
import WaveCount.Confidence.Basic
import WaveCount.Confidence.Scoring
import WaveCount.Decimal.Arithmetic
import WaveCount.Decimal.Basic
import WaveCount.Decimal.Conversion
import WaveCount.Decimal.Price
import WaveCount.Decimal.Text
import WaveCount.Degree.Basic
import WaveCount.Degree.History
import WaveCount.Fault.Basic
import WaveCount.Json.Basic
import WaveCount.Json.Printer
import WaveCount.Json.Reader
import WaveCount.Number.Binary64
import WaveCount.Number.Quantity
import WaveCount.Numeral.Basic
import WaveCount.Numeral.Layout
import WaveCount.Numeral.Shortest
import WaveCount.Phase.Basic
import WaveCount.Phase.Classify
import WaveCount.Phase.Memo
import WaveCount.Phase.Rules
import WaveCount.Proofs.Analysis.Causality
import WaveCount.Proofs.Analysis.Totality
import WaveCount.Proofs.Analysis.Truncation
import WaveCount.Proofs.Analysis.Unit
import WaveCount.Proofs.Axes.Analysis
import WaveCount.Proofs.Axes.Basic
import WaveCount.Proofs.Axes.Channel
import WaveCount.Proofs.Axes.Detection
import WaveCount.Proofs.Axes.Generation
import WaveCount.Proofs.Axes.Phase
import WaveCount.Proofs.Axes.Scenario
import WaveCount.Proofs.Axes.Scoring
import WaveCount.Proofs.Axes.Tracker
import WaveCount.Proofs.Axes.Unit
import WaveCount.Proofs.Calendar.Day
import WaveCount.Proofs.Calendar.Text
import WaveCount.Proofs.Decimal.Float
import WaveCount.Proofs.Decimal.Mono
import WaveCount.Proofs.Decimal.Order
import WaveCount.Proofs.Decimal.Text
import WaveCount.Proofs.Degree.Recommendation
import WaveCount.Proofs.Json.Float
import WaveCount.Proofs.Json.Number
import WaveCount.Proofs.Json.RoundTrip
import WaveCount.Proofs.Number.Exact
import WaveCount.Proofs.Number.ExactOrder
import WaveCount.Proofs.Number.ExactScore
import WaveCount.Proofs.Number.Extreme
import WaveCount.Proofs.Number.FloatCount
import WaveCount.Proofs.Number.FloatFields
import WaveCount.Proofs.Number.FloatMono
import WaveCount.Proofs.Number.FloatNearest
import WaveCount.Proofs.Number.FloatOrder
import WaveCount.Proofs.Number.FloatRank
import WaveCount.Proofs.Number.FloatScale
import WaveCount.Proofs.Number.FloatTotal
import WaveCount.Proofs.Number.Nearest
import WaveCount.Proofs.Number.Order
import WaveCount.Proofs.Number.Rounding
import WaveCount.Proofs.Number.Shares
import WaveCount.Proofs.Number.Total
import WaveCount.Proofs.Numeral.Digits
import WaveCount.Proofs.Numeral.Reading
import WaveCount.Proofs.Numeral.Shortest
import WaveCount.Proofs.Phase.Block
import WaveCount.Proofs.Phase.Extension
import WaveCount.Proofs.Phase.Walk
import WaveCount.Proofs.Phase.Widening
import WaveCount.Proofs.Ratio.Band
import WaveCount.Proofs.Ratio.Fit
import WaveCount.Proofs.Ratio.Proximity
import WaveCount.Proofs.Record.Codec
import WaveCount.Proofs.Record.Price
import WaveCount.Proofs.Record.Series
import WaveCount.Proofs.Run.Causality
import WaveCount.Proofs.Run.Latest
import WaveCount.Proofs.Run.Outcome
import WaveCount.Proofs.Run.Recommendation
import WaveCount.Proofs.Run.Settings
import WaveCount.Proofs.Run.StrongConsensus
import WaveCount.Proofs.Run.Support
import WaveCount.Proofs.Scenario.Blend
import WaveCount.Proofs.Scenario.Chance
import WaveCount.Proofs.Scenario.Comparison
import WaveCount.Proofs.Scenario.Consensus
import WaveCount.Proofs.Scenario.Generation
import WaveCount.Proofs.Scenario.HardRules
import WaveCount.Proofs.Scenario.Identifiers
import WaveCount.Proofs.Scenario.Invalidation
import WaveCount.Proofs.Scenario.Labels
import WaveCount.Proofs.Scenario.Likelihood
import WaveCount.Proofs.Scenario.NaiveShare
import WaveCount.Proofs.Scenario.Ranked
import WaveCount.Proofs.Scenario.Ranking
import WaveCount.Proofs.Scenario.Weight
import WaveCount.Proofs.Scenario.Widening
import WaveCount.Proofs.Series.Agreement
import WaveCount.Proofs.Series.AverageRange
import WaveCount.Proofs.Swing.Causality
import WaveCount.Proofs.Swing.Chart
import WaveCount.Proofs.Swing.Coarsening
import WaveCount.Proofs.Swing.Compression
import WaveCount.Proofs.Swing.Course
import WaveCount.Proofs.Swing.Detection
import WaveCount.Proofs.Swing.Extremes
import WaveCount.Proofs.Swing.Peaks
import WaveCount.Proofs.Swing.Pivot
import WaveCount.Proofs.Swing.Recompression
import WaveCount.Proofs.Swing.Retreat
import WaveCount.Proofs.Swing.Threshold
import WaveCount.Proofs.Swing.Turning
import WaveCount.Proofs.Swing.Zigzag
import WaveCount.Ratio.Basic
import WaveCount.Ratio.Confluence
import WaveCount.Record.Price
import WaveCount.Record.Run
import WaveCount.Record.Scenario
import WaveCount.Record.Series
import WaveCount.Record.Swing
import WaveCount.Report.Basic
import WaveCount.Run.Basic
import WaveCount.Run.Settings
import WaveCount.Run.Support
import WaveCount.Scenario.Basic
import WaveCount.Scenario.Bias
import WaveCount.Scenario.Candidate
import WaveCount.Scenario.Comparison
import WaveCount.Scenario.Consensus
import WaveCount.Scenario.Generation
import WaveCount.Scenario.Likelihood
import WaveCount.Scenario.Pattern
import WaveCount.Scenario.Ranking
import WaveCount.Series.Basic
import WaveCount.Series.TrueRange
import WaveCount.Swing.Basic
import WaveCount.Swing.Compression
import WaveCount.Swing.Detection
import WaveCount.Swing.Pivot
import WaveCount.Swing.Tracker
