import Packrat.Action.Stock
import Packrat.Grammar.Session
import Packrat.Grammar.Steps
import Packrat.Proofs.AttemptSteps
import Packrat.Proofs.Evaluation
import Packrat.Script.Session
import Packrat.Source.Reading
import Packrat.Proofs.CodePoints
import Packrat.Proofs.Remembering
import Packrat.Proofs.Unmemoized
import Packrat.Proofs.MemoTransparency
import Packrat.Proofs.Derivation
import Packrat.Proofs.AttemptResult
import Packrat.Proofs.DerivedAttempts
import Packrat.Proofs.Recognition
import Packrat.Proofs.Procedure
import Packrat.Proofs.CallLog
import Packrat.Proofs.FurthestFailure
import Packrat.Proofs.ErrorReport
import Packrat.Proofs.TiledPhrases
import Packrat.Proofs.Ledger
import Packrat.Proofs.PrimitiveSteps
import Packrat.Proofs.Course
import Packrat.Proofs.Coherence
import Packrat.Proofs.Reachable
import Packrat.Proofs.SlotOwners
import Packrat.Proofs.LeftRecursion
import Packrat.Proofs.PredicateIsolation
import Packrat.Proofs.ProcedureLogic
import Packrat.Proofs.Advance
import Packrat.Proofs.AtomicFailure
import Packrat.Proofs.Positions
import Packrat.Proofs.StackDiscipline
import Packrat.Proofs.History
import Packrat.Proofs.WithinSource
import Packrat.Proofs.Negations
import Packrat.Proofs.Shape
import Packrat.Proofs.Lockstep
import Packrat.Proofs.Work
import Packrat.Proofs.ActionRuns
import Packrat.Proofs.Spares
import Packrat.Proofs.MemoSavings
import Packrat.Proofs.Books
import Packrat.Proofs.TraceAgreement
import Packrat.Proofs.Ring
import Packrat.Proofs.TableAccounts
import Packrat.Proofs.RecordOrder
import Packrat.Proofs.FailingAttempts
import Packrat.Proofs.AlternativeOrder
import Packrat.Proofs.ExpectedSets
import Packrat.Proofs.OneLineReports
import Packrat.Proofs.RootChoice
import Packrat.Proofs.Consuming
import Packrat.Proofs.Ranking
import Packrat.Proofs.Termination
import Packrat.Proofs.RecordAlgebra
import Packrat.Proofs.RecentSaves
import Packrat.Proofs.TiledTexts
import Packrat.Proofs.HandedPhrases
import Packrat.Proofs.DisciplinedGrammars
import Packrat.Proofs.WrittenSums
import Packrat.Proofs.SumValues
import Packrat.Proofs.Gists
import Packrat.Proofs.RootGist
import Packrat.Proofs.SumParses
