import BendersPlanning.Main
import BendersPlanning.Scalar.Exact
import BendersPlanning.Proofs.ExactArithmetic
import BendersPlanning.Proofs.OrderedScalars
import BendersPlanning.Proofs.OrderedDoubles
import BendersPlanning.Proofs.LinearExpressions
import BendersPlanning.Proofs.WellFormedModels
import BendersPlanning.Proofs.FeasiblePoints
import BendersPlanning.Proofs.ConicPrograms
import BendersPlanning.Proofs.RelaxationRows
import BendersPlanning.Proofs.RelaxationPrograms
import BendersPlanning.Proofs.RowMultipliers
import BendersPlanning.Proofs.ShadowPrices
import BendersPlanning.Proofs.InfeasibilityCertificates
import BendersPlanning.Proofs.ExactBackends
import BendersPlanning.Proofs.Histories
import BendersPlanning.Proofs.RunTraces
import BendersPlanning.Proofs.OutcomeSources
import BendersPlanning.Proofs.PlanningObjectives
import BendersPlanning.Proofs.ProblemContracts
import BendersPlanning.Proofs.GeneratedNames
import BendersPlanning.Proofs.CheckedAnswers
import BendersPlanning.Proofs.FixedSubproblems
import BendersPlanning.Proofs.PlanningSolutions
import BendersPlanning.Proofs.EvaluatedOutcomes
import BendersPlanning.Proofs.CutValidity
import BendersPlanning.Proofs.RunInvariants
import BendersPlanning.Proofs.PreparableSubproblems
import BendersPlanning.Proofs.RunBounds
import BendersPlanning.Proofs.ConvergedRuns
import BendersPlanning.Proofs.AssembledPrograms
import BendersPlanning.Proofs.SearchSteps
import BendersPlanning.Proofs.BranchedBoxes
import BendersPlanning.Proofs.CheckedRelaxations
import BendersPlanning.Proofs.ExactSearches
import BendersPlanning.Proofs.FreeProxies
import BendersPlanning.Proofs.AcceptedCuts
import BendersPlanning.Proofs.FiniteReplies
import BendersPlanning.Proofs.BracketingBounds
import BendersPlanning.Proofs.StoppingRules
import BendersPlanning.Proofs.BitingCuts
import BendersPlanning.Proofs.RunProgress
import BendersPlanning.Proofs.RunFailures
import BendersPlanning.Proofs.RepeatedEvaluations
import BendersPlanning.Proofs.AccumulatedCuts
import BendersPlanning.Proofs.EditedModels
import BendersPlanning.Proofs.IndexedModels
import BendersPlanning.Proofs.FailedProjections
import BendersPlanning.Proofs.ConcurrentEvaluations
import BendersPlanning.Proofs.DistributedRuns
import BendersPlanning.Proofs.ReorderedSubproblems
import BendersPlanning.Proofs.SolutionShapes
import BendersPlanning.Proofs.ExtendedScalars
import BendersPlanning.Proofs.RecordForms
import BendersPlanning.Proofs.ModelForms
import BendersPlanning.Proofs.SolutionForms
import BendersPlanning.Proofs.IrreducibleConflicts
import BendersPlanning.Proofs.ElasticModels
import BendersPlanning.Proofs.RoundedScalars
import BendersPlanning.Proofs.RecordedHistories
import BendersPlanning.Proofs.LevelSetProjections
import BendersPlanning.Proofs.ZeroViolations
import BendersPlanning.Proofs.ObjectiveReadings
import BendersPlanning.Proofs.GuardedCandidates
import BendersPlanning.Proofs.RoundedIncumbents
import BendersPlanning.Proofs.AdaptedParameters
import BendersPlanning.Proofs.RetriedSolves
import BendersPlanning.Proofs.CutRows
import BendersPlanning.Proofs.AggregatedCuts
import BendersPlanning.Proofs.RefusedSlacks
import BendersPlanning.Proofs.FreeMinima
import BendersPlanning.Proofs.AutomaticPenalties
import BendersPlanning.Proofs.SlackAccounts
import BendersPlanning.Proofs.BuiltExpressions
import BendersPlanning.Proofs.ScaledScalars
import BendersPlanning.Proofs.StoredPrograms
import BendersPlanning.Proofs.CanonicalPrograms
