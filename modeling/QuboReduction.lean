import QuboReduction.Scalar.Rational
import QuboReduction.Scalar.Double
import QuboReduction.Terms
import QuboReduction.Linear
import QuboReduction.Quadratic
import QuboReduction.Polynomial
import QuboReduction.Variable
import QuboReduction.Objective
import QuboReduction.Constraint
import QuboReduction.Problem
import QuboReduction.Builder
import QuboReduction.NumberText
import QuboReduction.Violation
import QuboReduction.Decimal
import QuboReduction.Decimal.Shortest
import QuboReduction.Json
import QuboReduction.Json.Token
import QuboReduction.Json.Reader
import QuboReduction.Json.Writer
import QuboReduction.Shape
import QuboReduction.Penalty
import QuboReduction.ConversionError
import QuboReduction.PenaltyFactor
import QuboReduction.Record
import QuboReduction.Stage.ClosedForm
import QuboReduction.Range
import QuboReduction.Stage.Slack
import QuboReduction.Stage.Binarization
import QuboReduction.Stage.SquaredDeviation
import QuboReduction.Stage.Direction
import QuboReduction.Stage.Products
import QuboReduction.Pipeline
import QuboReduction.Report
import QuboReduction.Document
import QuboReduction.Document.Problem
import QuboReduction.Document.Conversion
import QuboReduction.Document.Pipeline
import QuboReduction.Decimal.Argument
import QuboReduction.Command.FileError
import QuboReduction.Command
import QuboReduction.Command.Arguments
import QuboReduction.Main
import QuboReduction.Proofs.Outcome
import QuboReduction.Proofs.Exact
import QuboReduction.Proofs.Terms
import QuboReduction.Proofs.Polynomial
import QuboReduction.Proofs.Coefficients
import QuboReduction.Proofs.WellFormed
import QuboReduction.Proofs.Negation
import QuboReduction.Proofs.Growth
import QuboReduction.Proofs.Reachable
import QuboReduction.Proofs.Assignment
import QuboReduction.Proofs.Range
import QuboReduction.Proofs.Gap
import QuboReduction.Proofs.Record
import QuboReduction.Proofs.Accounting
import QuboReduction.Proofs.Refinement
import QuboReduction.Proofs.Direction
import QuboReduction.Proofs.Tightening
import QuboReduction.Proofs.Weights
import QuboReduction.Proofs.Substitution
import QuboReduction.Proofs.Binarization
import QuboReduction.Proofs.BitValues
import QuboReduction.Proofs.ProductTable
import QuboReduction.Proofs.Products
import QuboReduction.Proofs.Simulation
import QuboReduction.Proofs.Shape
import QuboReduction.Proofs.Penalty
import QuboReduction.Proofs.PenaltyStages
import QuboReduction.Proofs.PenaltyValues
import QuboReduction.Proofs.QuboForm
import QuboReduction.Proofs.Coverage
import QuboReduction.Proofs.Reorientation
import QuboReduction.Proofs.Optima
import QuboReduction.Proofs.Dominance
import QuboReduction.Proofs.Estimate
import QuboReduction.Proofs.Swing
import QuboReduction.Proofs.PenaltyForm
import QuboReduction.Proofs.EstimatedPenalty
import QuboReduction.Proofs.Names
import QuboReduction.Proofs.ProductNames
import QuboReduction.Proofs.FactorChecks
import QuboReduction.Proofs.Refusals
import QuboReduction.Proofs.Interpretation
import QuboReduction.Proofs.Idempotence
import QuboReduction.Proofs.Documents
import QuboReduction.Proofs.RoundTrip
import QuboReduction.Proofs.Composition
import QuboReduction.Proofs.SlackValues
import QuboReduction.Proofs.ProductValues
import QuboReduction.Proofs.PipelineDocuments
import QuboReduction.Proofs.Rounding
import QuboReduction.Proofs.UnpackedArithmetic
import QuboReduction.Proofs.Packing
import QuboReduction.Proofs.Doubles
import QuboReduction.Proofs.Nearest
import QuboReduction.Proofs.Reciprocal
import QuboReduction.Proofs.IntegralDoubles
import QuboReduction.Proofs.Magnitudes
import QuboReduction.Proofs.PenaltyMagnitudes
import QuboReduction.Proofs.BitMagnitudes
import QuboReduction.Proofs.StageMagnitudes
import QuboReduction.Proofs.Normalization
import QuboReduction.Proofs.FiniteNumbers
import QuboReduction.Proofs.Corners
import QuboReduction.Proofs.Decision
import QuboReduction.Proofs.Multiples
import QuboReduction.Proofs.Restatement
import QuboReduction.Proofs.ExactDoubles
import QuboReduction.Proofs.Decoding
import QuboReduction.Proofs.ExactRanges
import QuboReduction.Proofs.ExactSlacks
import QuboReduction.Proofs.PenaltyCounts
import QuboReduction.Proofs.Unordered
import QuboReduction.Proofs.Feasibility
import QuboReduction.Proofs.GeneratedNames
import QuboReduction.Proofs.Recognition
import QuboReduction.Proofs.ExactRecognition
import QuboReduction.Proofs.ExtendedOrder
import QuboReduction.Proofs.Violations
import QuboReduction.Proofs.AdmissibleValues
import QuboReduction.Proofs.Regrouping
import QuboReduction.Proofs.ConstraintOrder
import QuboReduction.Proofs.Alternation
import QuboReduction.Proofs.ProductFree
import QuboReduction.Proofs.Building
import QuboReduction.Proofs.Mismatch
import QuboReduction.Proofs.WordWeights
import QuboReduction.Proofs.GuardedStages
import QuboReduction.Proofs.ReportText
