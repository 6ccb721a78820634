import MiddleEnd.Main
import MiddleEnd.LinkedLayout
import MiddleEnd.ControlFlow.Paths
import MiddleEnd.Execution.Calls
import MiddleEnd.Proofs.Coherence
import MiddleEnd.Proofs.Convergence
import MiddleEnd.Proofs.Dominance
import MiddleEnd.Proofs.Verification
import MiddleEnd.Proofs.Runs
import MiddleEnd.Proofs.Equations
import MiddleEnd.Proofs.Substitution
import MiddleEnd.Proofs.Thinning
import MiddleEnd.Proofs.Refinement
import MiddleEnd.Proofs.Folding
import MiddleEnd.Proofs.Phis
import MiddleEnd.Proofs.Restatement
import MiddleEnd.Proofs.ValueNumbering
import MiddleEnd.Proofs.SettledNumbers
import MiddleEnd.Proofs.GlobalNumbering
import MiddleEnd.Proofs.NumberedForm
import MiddleEnd.Proofs.Building
import MiddleEnd.Proofs.Slots
import MiddleEnd.Proofs.Thickening
import MiddleEnd.Proofs.Lattice
import MiddleEnd.Proofs.Fixpoint
import MiddleEnd.Proofs.ConstantFacts
import MiddleEnd.Proofs.ModuleFacts
import MiddleEnd.Proofs.EdgeEdits
import MiddleEnd.Proofs.Simulation
import MiddleEnd.Proofs.Pruning
import MiddleEnd.Proofs.BranchFolding
import MiddleEnd.Proofs.UnreachableBlocks
import MiddleEnd.Proofs.TrivialPhis
import MiddleEnd.Proofs.BlockMerging
import MiddleEnd.Proofs.FlowSimplification
import MiddleEnd.Proofs.ParallelCopies
import MiddleEnd.Proofs.DominatorTree
import MiddleEnd.Proofs.ChangeSequences
import MiddleEnd.Proofs.LinkedLayout
import MiddleEnd.Proofs.SingleAssignment
import MiddleEnd.Proofs.ConstantPropagation
import MiddleEnd.Proofs.TypeSafety
import MiddleEnd.Proofs.ModifiedFlag
import MiddleEnd.Proofs.BuilderHistories
import MiddleEnd.Proofs.BuilderSteps
import MiddleEnd.Proofs.StaleDominance
import MiddleEnd.Proofs.KnownResults
import MiddleEnd.Proofs.FactsApplied
import MiddleEnd.Proofs.NaturalLoops
import MiddleEnd.Proofs.SimplifiedFlow
import MiddleEnd.Proofs.Detours
import MiddleEnd.Proofs.Grafting
import MiddleEnd.Proofs.PreheaderEdits
import MiddleEnd.Proofs.Preheaders
import MiddleEnd.Proofs.LoopSimplification
import MiddleEnd.Proofs.LoopNesting
import MiddleEnd.Proofs.BlockOrders
import MiddleEnd.Proofs.WordArithmetic
import MiddleEnd.Proofs.Monotonicity
import MiddleEnd.Proofs.DeadInstructions
import MiddleEnd.Proofs.DeadCode
import MiddleEnd.Proofs.LiveCode
import MiddleEnd.Proofs.RecursivePruning
import MiddleEnd.Proofs.SearchTurns
import MiddleEnd.Proofs.SearchEnds
import MiddleEnd.Proofs.NestedSearches
import MiddleEnd.Proofs.ComponentSearch
import MiddleEnd.Proofs.PhiLowering
import MiddleEnd.Proofs.Records
import MiddleEnd.Proofs.EdgeRecords
import MiddleEnd.Proofs.InsertionPoints
import MiddleEnd.Proofs.IteratedFrontiers
import MiddleEnd.Proofs.PhiPlacement
import MiddleEnd.Proofs.HeldValues
import MiddleEnd.Proofs.SlotPhis
import MiddleEnd.Proofs.SlotRenaming
import MiddleEnd.Proofs.SlotWalk
import MiddleEnd.Proofs.FilledPhis
import MiddleEnd.Proofs.SlotRuns
import MiddleEnd.Proofs.Culling
import MiddleEnd.Proofs.SlotRemoval
import MiddleEnd.Proofs.Promotion
import MiddleEnd.Proofs.Revisions
import MiddleEnd.Proofs.ReadableFunctions
import MiddleEnd.Proofs.Diagnoses
import MiddleEnd.Proofs.ValueNumbers
import MiddleEnd.Proofs.InductionVariables
import MiddleEnd.Proofs.Reductions
import MiddleEnd.Proofs.StrengthReduction
import MiddleEnd.Proofs.PassRevisions
import MiddleEnd.Proofs.ImportTables
import MiddleEnd.Proofs.Linking
import MiddleEnd.Proofs.PrintedNames
import MiddleEnd.Proofs.SplitRuns
import MiddleEnd.Proofs.PhiRegisters
import MiddleEnd.Proofs.LoweredForm
import MiddleEnd.Proofs.LoweredRuns
