import OmegaGames.Attractor
import OmegaGames.Automaton.Acceptance
import OmegaGames.Automaton.Basic
import OmegaGames.Automaton.Description
import OmegaGames.Automaton.Explicit
import OmegaGames.Automaton.Guard
import OmegaGames.Automaton.Hoa
import OmegaGames.Automaton.Lockstep
import OmegaGames.Automaton.LtlTool
import OmegaGames.Automaton.Parity
import OmegaGames.Choice
import OmegaGames.CommandLine
import OmegaGames.Decimal.Plain
import OmegaGames.Decimal.Read
import OmegaGames.Decimal.Shortest
import OmegaGames.Formula
import OmegaGames.Game.Basic
import OmegaGames.Game.Message
import OmegaGames.Game.Predecessors
import OmegaGames.Game.Restriction
import OmegaGames.Game.Subgame
import OmegaGames.Index
import OmegaGames.Interner
import OmegaGames.Main
import OmegaGames.NodeSet
import OmegaGames.Options
import OmegaGames.PartialSums
import OmegaGames.PgSolver.Basic
import OmegaGames.PgSolver.Conversion
import OmegaGames.PgSolver.Format
import OmegaGames.Product.Check
import OmegaGames.Product.Game
import OmegaGames.Product.Graph
import OmegaGames.Product.Model
import OmegaGames.Proofs.Agreement
import OmegaGames.Proofs.AlmostSure
import OmegaGames.Proofs.Attraction
import OmegaGames.Proofs.Components
import OmegaGames.Proofs.Dominion
import OmegaGames.Proofs.Duality
import OmegaGames.Proofs.Edges
import OmegaGames.Proofs.GadgetLayout
import OmegaGames.Proofs.GadgetTranslation
import OmegaGames.Proofs.LiftingRegions
import OmegaGames.Proofs.LiftingRun
import OmegaGames.Proofs.MeasureRank
import OmegaGames.Proofs.Narrowing
import OmegaGames.Proofs.NodeSets
import OmegaGames.Proofs.Peeling
import OmegaGames.Proofs.Plays
import OmegaGames.Proofs.Splitting
import OmegaGames.Proofs.TwoPlayerSolutions
import OmegaGames.Proofs.WinningStrategies
import OmegaGames.Qualitative.Gadget
import OmegaGames.Qualitative.Lifting
import OmegaGames.Qualitative.Measure
import OmegaGames.Qualitative.Problem
import OmegaGames.Qualitative.Recursive
import OmegaGames.Quantitative.Improvement
import OmegaGames.Quantitative.Reachability
import OmegaGames.Scalar
import OmegaGames.Strategy
import OmegaGames.Text.Alphanumeric
import OmegaGames.Text.Blank
import OmegaGames.Text.Lines
import OmegaGames.Text.Numeral
import OmegaGames.Text.Quoted
import OmegaGames.Text.Reader
import OmegaGames.Text.Utf8
import OmegaGames.Proofs.AlmostSureStrategies
import OmegaGames.Proofs.ExplicitAutomata
import OmegaGames.Proofs.ProductExploration
import OmegaGames.Proofs.ProductGames
import OmegaGames.Proofs.EvenDecisions
import OmegaGames.Proofs.ImprovementDecisions
import OmegaGames.Proofs.ImprovementErrors
import OmegaGames.Proofs.FloatOrder
import OmegaGames.Proofs.TwoPlayerValues
import OmegaGames.Proofs.DescribedAutomata
import OmegaGames.Proofs.Relabelling
import OmegaGames.Proofs.Degeneralization
import OmegaGames.Proofs.LawfulAutomata
import OmegaGames.Proofs.ProductDiscovery
import OmegaGames.Proofs.ProductAnswers
import OmegaGames.Proofs.ProductCompleteness
import OmegaGames.Proofs.UnboundedSearch
import OmegaGames.Proofs.RecursiveRuns
import OmegaGames.Proofs.LockstepAnswers
import OmegaGames.Proofs.WellFormedDescriptions
import OmegaGames.Proofs.Handover
import OmegaGames.Proofs.CoalitionMonotonicity
import OmegaGames.Proofs.RegionIndependence
import OmegaGames.Proofs.LiftingSchedules
import OmegaGames.Proofs.LiftingDecisions
import OmegaGames.Proofs.AttractorFixedPoints
import OmegaGames.Proofs.RecursiveSymmetry
import OmegaGames.Proofs.Normalization
import OmegaGames.Proofs.Strictness
import OmegaGames.Proofs.ImprovementStrategies
import OmegaGames.Proofs.ColorPriorities
import OmegaGames.Proofs.DeclaredColors
import OmegaGames.Proofs.Mentions
import OmegaGames.Proofs.RejectingSinks
import OmegaGames.Proofs.Determinism
import OmegaGames.Proofs.SpacedReading
import OmegaGames.Proofs.GuardTexts
import OmegaGames.Proofs.ExpressionTexts
import OmegaGames.Proofs.StateLines
import OmegaGames.Proofs.BodyLines
import OmegaGames.Proofs.FormulaTexts
import OmegaGames.Proofs.FileConversion
import OmegaGames.Proofs.FileTexts
import OmegaGames.Proofs.RisingValues
import OmegaGames.Proofs.ValuePreservingSearch
import OmegaGames.Proofs.PredecessorLists
import OmegaGames.Proofs.ExactViews
