import HackStack.Assembly.Program
import HackStack.Assembly.Reader
import HackStack.Assembly.Sink
import HackStack.Assembly.Statement
import HackStack.Command.Basic
import HackStack.Command.Reader
import HackStack.Diagnostic
import HackStack.Files.Path
import HackStack.Files.Pattern
import HackStack.Files.Search
import HackStack.Files.Tree
import HackStack.Instruction
import HackStack.Json.Text
import HackStack.Json.Value
import HackStack.Lowering.Fragment
import HackStack.Lowering.Program
import HackStack.Machine.Basic
import HackStack.Machine.Step
import HackStack.Machine.Word
import HackStack.Main
import HackStack.Options
import HackStack.Proofs.AllOrNothing
import HackStack.Proofs.Annotations
import HackStack.Proofs.Assembling
import HackStack.Proofs.Bindings
import HackStack.Proofs.Budgets
import HackStack.Proofs.Comparisons
import HackStack.Proofs.Directories
import HackStack.Proofs.DirectorySources
import HackStack.Proofs.Disassembly
import HackStack.Proofs.Encoding
import HackStack.Proofs.ErrorReports
import HackStack.Proofs.Execution
import HackStack.Proofs.Fragments
import HackStack.Proofs.Frames
import HackStack.Proofs.Generated
import HackStack.Proofs.Grammar
import HackStack.Proofs.HaltLoops
import HackStack.Proofs.Hygiene
import HackStack.Proofs.InPlace
import HackStack.Proofs.InstructionSet
import HackStack.Proofs.Labels
import HackStack.Proofs.Layout
import HackStack.Proofs.LineGrammar
import HackStack.Proofs.Locals
import HackStack.Proofs.Operations
import HackStack.Proofs.Ordering
import HackStack.Proofs.Passages
import HackStack.Proofs.Paths
import HackStack.Proofs.Patterns
import HackStack.Proofs.Printing
import HackStack.Proofs.Reached
import HackStack.Proofs.Reading
import HackStack.Proofs.References
import HackStack.Proofs.Rejections
import HackStack.Proofs.Rendering
import HackStack.Proofs.Resumption
import HackStack.Proofs.SavedOptions
import HackStack.Proofs.Scopes
import HackStack.Proofs.Scratch
import HackStack.Proofs.Searching
import HackStack.Proofs.Segments
import HackStack.Proofs.Simulation
import HackStack.Proofs.Sites
import HackStack.Proofs.SourceFiles
import HackStack.Proofs.StackMachine
import HackStack.Proofs.StaticLimit
import HackStack.Proofs.Statics
import HackStack.Proofs.UnitNames
import HackStack.Proofs.Words
import HackStack.Text.Decimal
import HackStack.Text.Lines
import HackStack.Tool.Request
import HackStack.Tool.Run
import HackStack.Tool.Sources
