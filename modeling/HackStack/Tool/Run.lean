import HackStack.Machine.Step
import HackStack.Tool.Request
import HackStack.Tool.Sources

set_option autoImplicit false

namespace HackStack.Tool

open Files

structure Outcome where
  exitCode : Nat
  stdout : String := ""
  stderr : List String := []
  tree : Tree

namespace Outcome

def usage (t : Tree) : Outcome := { exitCode := 2, tree := t }

def failed (t : Tree) (messages : List Diagnostic) (failure : Failure) : Outcome where
  exitCode := 1
  stderr := messages.map (·.text) ++ failure.notes ++ ["Error: " ++ failure.message]
  tree := t

def done (t : Tree) (messages : List Diagnostic) (stdout : String) : Outcome where
  exitCode := 0
  stdout := stdout
  stderr := messages.map (·.text)
  tree := t

end Outcome

/-- The options of a request: those of the configuration, changed by the command line. -/
def LowerArgs.options (args : LowerArgs) (t : Tree) : Except Failure Options := do
  let base ← match args.config with
    | some path => loadOptions t path
    | none => .ok {}
  let options : Options :=
    { base with
      entryPoint := args.entryPoint.getD base.entryPoint
      annotate := base.annotate && !args.noAnnotate }
  match options.validate with
  | .error cause => .error (.invalidOptions cause)
  | .ok _ => .ok options

def LowerArgs.lower (args : LowerArgs) (t : Tree) : Except Failure (Options × Lowered) := do
  let options ← args.options t
  return (options, ← lowerInput t args.input options args.mode)

def readText (t : Tree) (path : Path) : Except Failure String :=
  match t.read path with
  | .error cause => .error (.read path cause)
  | .ok text => .ok text

def assembleText (text : String) : Except Failure Assembly.Program :=
  match Assembly.assemble text with
  | .error errors => .error (.assembly errors)
  | .ok program => .ok program

def writeOutput (t : Tree) (messages : List Diagnostic) (path : Path) (text line : String) :
    Outcome :=
  match t.write path text with
  | .error cause => .failed t messages (.write path cause)
  | .ok after => .done after messages (line ++ path.text ++ "\n")

def translate (t : Tree) (args : LowerArgs) (output : Option Path) : Outcome :=
  match args.lower t with
  | .error failure => .failed t [] failure
  | .ok (_, lowered) =>
    writeOutput t lowered.warnings (output.getD (defaultOutput t args.input)) lowered.text
      "Assembly written to: "

def assemble (t : Tree) (input : Path) (output : Option Path) : Outcome :=
  match readText t input >>= assembleText with
  | .error failure => .failed t [] failure
  | .ok program =>
    writeOutput t [] (output.getD (input.withExtension "hack")) program.binary
      (Decimal.text program.words.size ++ " words written to: ")

/-- The assembly that a run executes: that of an assembly file, or of an input that is lowered. -/
def LowerArgs.assembly (args : LowerArgs) (t : Tree) : Except Failure (Options × Lowered) := do
  if args.input.extension? = some "asm" then
    let options ← args.options t
    return (options, ⟨← readText t args.input, []⟩)
  else args.lower t

def signedList (words : List Word) : String :=
  "[" ++ ", ".intercalate (words.map fun w => Decimal.signedText (Word.signed w)) ++ "]"

def execute (text : String) (budget : Nat) : Except Failure Machine := do
  let program ← assembleText text
  match Machine.load {} program.words with
  | .error fault => .error (.machine fault)
  | .ok machine =>
    match machine.run budget with
    | (_, .error fault) => .error (.machine fault)
    | (machine, .ok _) => .ok machine

def run (t : Tree) (args : LowerArgs) (budget : Nat) : Outcome :=
  match args.assembly t with
  | .error failure => .failed t [] failure
  | .ok (options, lowered) =>
    match execute lowered.text budget with
    | .error failure => .failed t lowered.warnings failure
    | .ok machine =>
      .done t lowered.warnings
        ("SP = " ++ Decimal.text (machine.peek Machine.stackPointer).toNat ++ "\nstack = " ++
          signedList (machine.stack options.stackBase) ++ "\n")

def initConfig (t : Tree) (path : Path) : Outcome :=
  match saveOptions t {} path with
  | .error failure => .failed t [] failure
  | .ok after => .done after [] ""

def helpText : String :=
  "Hack VM Translator\n\n" ++
  "Usage: vmt [OPTIONS] <COMMAND>\n\n" ++
  "Commands:\n" ++
  "  translate    Translate VM code to Hack assembly\n" ++
  "  assemble     Assemble Hack assembly to binary text\n" ++
  "  run          Translate (or load an .asm file) and execute on the emulator\n" ++
  "  init-config  Write a config file holding the default options\n"

def perform (t : Tree) : Request → Outcome
  | .translate args output => translate t args output
  | .assemble input output => assemble t input output
  | .run args budget => run t args budget
  | .initConfig path => initConfig t path
  | .version => .done t [] "vmt 0.1.0\n"
  | .help => .done t [] helpText

def invoke (t : Tree) (args : List String) : Outcome :=
  match request? args with
  | none => .usage t
  | some request => perform t request

end HackStack.Tool
