import LetStack.CommandLine.Report
import LetStack.Compilation
import LetStack.Main
import LetStack.Proofs.Renaming
import LetStack.Proofs.Typing
import LetStack.Proofs.TypeDerivations
import LetStack.Proofs.Soundness
import LetStack.Proofs.FreeVars
import LetStack.Proofs.FreeOccurrences
import LetStack.Proofs.BindingCounts
import LetStack.Proofs.Lifting
import LetStack.Proofs.LiftedMeaning
import LetStack.Proofs.Generation
import LetStack.Proofs.Linking
import LetStack.Proofs.Steps
import LetStack.Proofs.CodeRuns
import LetStack.Proofs.Execution
import LetStack.Proofs.MachineUpkeep
import LetStack.Proofs.ProgramRuns
import LetStack.Proofs.Compilation
import LetStack.Proofs.OpenCalls
import LetStack.Proofs.CallFrames
import LetStack.Proofs.AlikeTrees
import LetStack.Proofs.NamelessTrees
import LetStack.Proofs.ParsedTrees
import LetStack.Proofs.RenamedMeaning
import LetStack.Proofs.Scoping
import LetStack.Proofs.UnboundNames
import LetStack.Proofs.OpenScopes
import LetStack.Proofs.ScopeStacks
import LetStack.Proofs.CheckedPrograms
import LetStack.Proofs.LiftedPrograms
import LetStack.Proofs.CheckedTrees
import LetStack.Proofs.CallDepth
import LetStack.Proofs.Grammar
import LetStack.Proofs.ParserSoundness
import LetStack.Proofs.ParserCompleteness
import LetStack.Proofs.Lexing
import LetStack.Proofs.Regrouping
import LetStack.Proofs.RoundTrip
import LetStack.Proofs.LabelSubstitution
import LetStack.Proofs.TokenLayout
import LetStack.Proofs.ContinuedTexts
import LetStack.Proofs.NodePositions
import LetStack.Proofs.Recognizer
import LetStack.Proofs.ParseErrors
import LetStack.Proofs.SpacedTexts
import LetStack.Proofs.Lookahead
import LetStack.Proofs.SourceSlices
import LetStack.Proofs.MemoryAccess
import LetStack.Proofs.StepLimits
import LetStack.Proofs.StackEffects
import LetStack.Proofs.BalancedGeneration
import LetStack.Proofs.WordBounds
import LetStack.Proofs.AddressRange
import LetStack.Proofs.LocalHistories
import LetStack.Proofs.FreshNames
