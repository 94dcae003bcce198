import AlgebraTutor.Tutor
import AlgebraTutor.Expr.Traversal
import AlgebraTutor.Rule.Table
import AlgebraTutor.Formula.Attempts
import AlgebraTutor.Proofs.Reordering
import AlgebraTutor.Proofs.Regrouping
import AlgebraTutor.Proofs.Arrangements
import AlgebraTutor.Proofs.Matching
import AlgebraTutor.Proofs.MatchedBindings
import AlgebraTutor.Proofs.UnorderedMatching
import AlgebraTutor.Proofs.Rewriting
import AlgebraTutor.Proofs.PatternValue
import AlgebraTutor.Proofs.RuleValue
import AlgebraTutor.Proofs.MaximalMunch
import AlgebraTutor.Proofs.Reading
import AlgebraTutor.Proofs.WholeTexts
import AlgebraTutor.Proofs.RoundTrip
import AlgebraTutor.Proofs.Recognition
import AlgebraTutor.Proofs.WrittenFormulas
import AlgebraTutor.Proofs.DerivedParts
import AlgebraTutor.Proofs.FormulaParts
import AlgebraTutor.Proofs.ExactSpans
import AlgebraTutor.Proofs.DecimalExpansions
import AlgebraTutor.Proofs.ReaderErrors
import AlgebraTutor.Proofs.ErrorPlaces
import AlgebraTutor.Proofs.ReadTrees
import AlgebraTutor.Proofs.Misreading
import AlgebraTutor.Proofs.Hereditary
import AlgebraTutor.Proofs.HereditaryRules
import AlgebraTutor.Proofs.CallFreeRules
import AlgebraTutor.Proofs.Reductions
import AlgebraTutor.Proofs.Simplification
import AlgebraTutor.Proofs.NextSteps
import AlgebraTutor.Proofs.PrintedTexts
import AlgebraTutor.Proofs.TermShares
import AlgebraTutor.Proofs.PlainSteps
import AlgebraTutor.Proofs.DisjointSets
import AlgebraTutor.Proofs.UnitedTexts
import AlgebraTutor.Proofs.CanonicalForms
import AlgebraTutor.Proofs.BalancedKeys
import AlgebraTutor.Proofs.KeyPlaces
import AlgebraTutor.Proofs.CanonicalKeys
import AlgebraTutor.Proofs.OrderedKeys
import AlgebraTutor.Proofs.EqualityCache
import AlgebraTutor.Proofs.SessionMemory
import AlgebraTutor.Proofs.SessionOperations
import AlgebraTutor.Proofs.SessionTransparency
import AlgebraTutor.Proofs.SearchPaths
import AlgebraTutor.Proofs.StepVerdicts
import AlgebraTutor.Proofs.ListedReductions
import AlgebraTutor.Proofs.NormalForms
import AlgebraTutor.Proofs.Rounds
import AlgebraTutor.Proofs.Answers
import AlgebraTutor.Proofs.StepAnswers
import AlgebraTutor.Proofs.EquationMoves
import AlgebraTutor.Proofs.SolverTraces
import AlgebraTutor.Proofs.SessionHistory
import AlgebraTutor.Proofs.EquationVerdicts
import AlgebraTutor.Proofs.EquationTexts
import AlgebraTutor.Proofs.MirroredEquations
import AlgebraTutor.Proofs.Traversals
import AlgebraTutor.Proofs.RuleIdentifiers
import AlgebraTutor.Proofs.WrittenTables
import AlgebraTutor.Proofs.Roots
import AlgebraTutor.Proofs.ReaderMoves
import AlgebraTutor.Proofs.ReaderProgress
