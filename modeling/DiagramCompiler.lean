import DiagramCompiler.Diagram.Eval
import DiagramCompiler.Engine.Scripted
import DiagramCompiler.Library.Recorder
import DiagramCompiler.Main
import DiagramCompiler.Workbench
import DiagramCompiler.Proofs.Operations
import DiagramCompiler.Proofs.Canonicity
import DiagramCompiler.Proofs.Handles
import DiagramCompiler.Proofs.HandleCanonicity
import DiagramCompiler.Proofs.PostOrder
import DiagramCompiler.Proofs.WrittenTables
import DiagramCompiler.Proofs.Renumbering
import DiagramCompiler.Proofs.HandleDumps
import DiagramCompiler.Proofs.CompiledFormulas
import DiagramCompiler.Proofs.CompilationCorrectness
import DiagramCompiler.Proofs.NormalForm
import DiagramCompiler.Proofs.FileTrees
import DiagramCompiler.Proofs.WrittenDumps
import DiagramCompiler.Proofs.EditedInputs
import DiagramCompiler.Proofs.CachedDiagrams
import DiagramCompiler.Proofs.UndisturbedRuns
import DiagramCompiler.Proofs.WellFormedDiagrams
import DiagramCompiler.Proofs.ReadDumps
import DiagramCompiler.Proofs.LevelModels
import DiagramCompiler.Proofs.ModelCounts
import DiagramCompiler.Proofs.RankedModels
import DiagramCompiler.Proofs.DumpRoundTrip
import DiagramCompiler.Proofs.NativeTables
import DiagramCompiler.Proofs.NumberedTables
import DiagramCompiler.Proofs.NativeTexts
import DiagramCompiler.Proofs.NativeTranslation
import DiagramCompiler.Proofs.RelabelledTables
import DiagramCompiler.Proofs.RearrangedTexts
import DiagramCompiler.Proofs.EngineContracts
import DiagramCompiler.Proofs.RecordedEngines
import DiagramCompiler.Proofs.TimedOutClauses
import DiagramCompiler.Proofs.SortedClauses
import DiagramCompiler.Proofs.EngineDumps
import DiagramCompiler.Proofs.DescribedDumps
import DiagramCompiler.Proofs.KeptCaches
import DiagramCompiler.Proofs.RunOutcomes
import DiagramCompiler.Proofs.RunSequences
import DiagramCompiler.Proofs.RecordedRuns
import DiagramCompiler.Proofs.TransientTimeouts
import DiagramCompiler.Proofs.AcyclicOrientation
import DiagramCompiler.Proofs.FoundOrders
import DiagramCompiler.Proofs.ReadProblems
import DiagramCompiler.Proofs.ReadBackOrders
import DiagramCompiler.Proofs.DamagedEntries
import DiagramCompiler.Proofs.TalliedEngines
import DiagramCompiler.Proofs.LibraryReferences
import DiagramCompiler.Proofs.StoredDumps
import DiagramCompiler.Proofs.StoreHistories
import DiagramCompiler.Proofs.FallingSpans
import DiagramCompiler.Proofs.TriagedPopulations
import DiagramCompiler.Proofs.OrientedEdges
import DiagramCompiler.Proofs.TopologicalOrders
import DiagramCompiler.Proofs.ResemblingFiles
import DiagramCompiler.Proofs.BypassedCaches
import DiagramCompiler.Proofs.TightestClauses
import DiagramCompiler.Proofs.GivenClauses
import DiagramCompiler.Proofs.RedeclaredCounts
import DiagramCompiler.Proofs.LevelledTables
import DiagramCompiler.Proofs.ReportedLevels
import DiagramCompiler.Proofs.AnsweredDumps
import DiagramCompiler.Proofs.TruncatedTexts
import DiagramCompiler.Proofs.FailedStores
import DiagramCompiler.Proofs.InteractionGraphs
import DiagramCompiler.Proofs.RelaxedOrders
import DiagramCompiler.Proofs.ShiftedTables
import DiagramCompiler.Proofs.ShiftedEngines
import DiagramCompiler.Proofs.LibraryBrackets
