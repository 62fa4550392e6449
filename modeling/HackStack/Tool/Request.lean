import HackStack.Files.Path
import HackStack.Lowering.Program
import HackStack.Text.Decimal

set_option autoImplicit false

/-! # Requests on the command line

The arguments are read from left to right. Flags and options may stand before or after positional
arguments; two dashes end them. A flag or option may be given once. The flag that asks for help takes
effect where it stands: what comes before it has to be right, and what comes after it is not read. -/

namespace HackStack.Tool

open Files

def maxBudget : Nat := 18446744073709551615

def budget? (text : String) : Option Nat :=
  (Decimal.unsigned? text.toList).bind fun n => if n ≤ maxBudget then some n else none

def path? (text : String) : Option Path := if text = "" then none else some ⟨text⟩

inductive ValueKind where
  | path
  | text
  | mode
  | budget
  deriving DecidableEq, Repr

def ValueKind.accepts (value : String) : ValueKind → Bool
  | .path => (path? value).isSome
  | .text => true
  | .mode => (BootstrapMode.ofText? value).isSome
  | .budget => (budget? value).isSome

structure Switch where
  long : String
  short : Option Char := none
  kind : Option ValueKind := none
  deriving DecidableEq, Repr

def verbose : Switch := { long := "verbose", short := some 'v' }

def helpFlag : Switch := { long := "help", short := some 'h' }

def outputOption : Switch := { long := "output", short := some 'o', kind := some .path }

inductive Argument where
  | flag (name : String)
  | option (name value : String)
  | positional (value : String)
  deriving DecidableEq, Repr

/-- Whether an argument can be the value of an option or a positional argument. A single dash can. -/
def isValue (arg : String) : Bool := arg == "-" || arg.toList.head? != some '-'

def splitLong (body : List Char) : String × Option String :=
  match Text.cutAt? '=' body with
  | none => (String.ofList body, none)
  | some (name, value) => (String.ofList name, some (String.ofList value))

inductive Found where
  | bad
  | flag (name : String)
  | option (name value : String)
  /-- An option whose value is the next argument. -/
  | pending (name : String) (kind : ValueKind)
  deriving DecidableEq, Repr

def Found.ofValue (name : String) (kind : ValueKind) (value : String) : Found :=
  if kind.accepts value then .option name value else .bad

/-- What a cluster of letters after one dash stands for. What follows the letter of an option is its
value, and an equals sign before that value is dropped. -/
def splitCluster (switches : List Switch) : List Char → List Found
  | [] => []
  | letter :: rest =>
    match switches.find? fun s => s.short = some letter with
    | none => [.bad]
    | some s =>
      match s.kind, rest with
      | none, rest => .flag s.long :: splitCluster switches rest
      | some kind, [] => [.pending s.long kind]
      | some kind, '=' :: value => [.ofValue s.long kind (String.ofList value)]
      | some kind, value => [.ofValue s.long kind (String.ofList value)]

def findLong (switches : List Switch) (name : String) (value : Option String) : Found :=
  match switches.find? fun s => s.long = name with
  | none => .bad
  | some s =>
    match s.kind, value with
    | some kind, some value => .ofValue s.long kind value
    | some kind, none => .pending s.long kind
    | none, some _ => .bad
    | none, none => .flag s.long

inductive Lexeme where
  | endOfOptions
  | switches (found : List Found)
  | plain (value : String)
  deriving DecidableEq, Repr

def readArgument (switches : List Switch) (arg : String) : Lexeme :=
  match arg.toList with
  | ['-', '-'] => .endOfOptions
  | '-' :: '-' :: body =>
    let (name, value) := splitLong body
    .switches [findLong switches name value]
  | '-' :: letter :: letters => .switches (splitCluster switches (letter :: letters))
  | _ => .plain arg

inductive Ending where
  | complete
  | help
  | bad
  deriving DecidableEq, Repr

structure Scanned where
  arguments : List Argument := []
  ending : Ending
  deriving DecidableEq, Repr

def Scanned.after (arguments : List Argument) (s : Scanned) : Scanned :=
  { s with arguments := arguments ++ s.arguments }

inductive Next where
  | argument
  | value (name : String) (kind : ValueKind)
  | stop (ending : Ending)
  deriving DecidableEq, Repr

def settle : List Found → List Argument × Next
  | [] => ([], .argument)
  | .bad :: _ => ([], .stop .bad)
  | .pending name kind :: _ => ([], .value name kind)
  | .option name value :: rest =>
    let (arguments, next) := settle rest
    (.option name value :: arguments, next)
  | .flag name :: rest =>
    if name = helpFlag.long then ([], .stop .help)
    else
      let (arguments, next) := settle rest
      (.flag name :: arguments, next)

def scan (switches : List Switch) : List String → Scanned
  | [] => { ending := .complete }
  | arg :: rest =>
    match readArgument switches arg with
    | .endOfOptions =>
      { arguments := rest.map .positional
        ending := if rest.all fun value => (path? value).isSome then .complete else .bad }
    | .plain value =>
      if (path? value).isSome then (scan switches rest).after [.positional value]
      else { ending := .bad }
    | .switches found =>
      match settle found, rest with
      | (arguments, .argument), rest => (scan switches rest).after arguments
      | (arguments, .stop ending), _ => { arguments, ending }
      | (_, .value _ _), [] => { ending := .bad }
      | (arguments, .value name kind), value :: rest =>
        if isValue value && kind.accepts value then
          (scan switches rest).after (arguments ++ [.option name value])
        else { ending := .bad }

def isOnce (arguments : List Argument) : Bool :=
  let names := arguments.filterMap fun
    | .flag name | .option name _ => some name
    | .positional _ => none
  names.eraseDups.length == names.length

def hasFlag (arguments : List Argument) (name : String) : Bool := arguments.contains (.flag name)

def valueOf? (arguments : List Argument) (name : String) : Option String :=
  arguments.findSome? fun
    | .option given value => if given = name then some value else none
    | _ => none

def positionals (arguments : List Argument) : List String :=
  arguments.filterMap fun
    | .positional value => some value
    | _ => none

/-- The value of an option read by `decode`; none if the option is absent, and a refusal if the value
has no reading. -/
def optional? {α : Type} (arguments : List Argument) (name : String) (decode : String → Option α) :
    Option (Option α) :=
  match valueOf? arguments name with
  | none => some none
  | some value => (decode value).map some

structure LowerArgs where
  input : Path
  mode : BootstrapMode := .auto
  entryPoint : Option String := none
  noAnnotate : Bool := false
  config : Option Path := none
  deriving DecidableEq, Repr

def defaultBudget : Nat := 10000000

inductive Request where
  | translate (args : LowerArgs) (output : Option Path)
  | assemble (input : Path) (output : Option Path)
  | run (args : LowerArgs) (budget : Nat)
  | initConfig (path : Path)
  | version
  | help
  deriving DecidableEq, Repr

def commonSwitches : List Switch := [verbose, helpFlag]

def lowerSwitches : List Switch :=
  [{ long := "bootstrap", kind := some .mode }, { long := "entry-point", kind := some .text },
   { long := "no-annotate" }, { long := "config", kind := some .path }]

def lowerArgs? (arguments : List Argument) : Option LowerArgs := do
  let [input] := positionals arguments | none
  let mode ← optional? arguments "bootstrap" BootstrapMode.ofText?
  return {
    input := ← path? input
    mode := mode.getD .auto
    entryPoint := valueOf? arguments "entry-point"
    noAnnotate := hasFlag arguments "no-annotate"
    config := ← optional? arguments "config" path? }

/-- The request of a subcommand with the given switches. No subcommand has more than one positional
argument. -/
def readSubcommand (switches : List Switch) (args : List String)
    (decode : List Argument → Option Request) : Option Request :=
  let scanned := scan (switches ++ commonSwitches) args
  if isOnce scanned.arguments && (positionals scanned.arguments).length ≤ 1 then
    match scanned.ending with
    | .complete => decode scanned.arguments
    | .help => some .help
    | .bad => none
  else none

def subcommands : List String := ["translate", "assemble", "run", "init-config", "help"]

def help? : List String → Option Request
  | [] => some .help
  | [name] => if subcommands.contains name then some .help else none
  | _ => none

def subcommand? (name : String) (args : List String) : Option Request :=
  match name with
  | "translate" =>
    readSubcommand (outputOption :: lowerSwitches) args fun arguments => do
      return .translate (← lowerArgs? arguments) (← optional? arguments outputOption.long path?)
  | "assemble" =>
    readSubcommand [outputOption] args fun arguments => do
      let [input] := positionals arguments | none
      return .assemble (← path? input) (← optional? arguments outputOption.long path?)
  | "run" =>
    readSubcommand ({ long := "steps", kind := some .budget } :: lowerSwitches) args fun arguments => do
      let budget ← optional? arguments "steps" budget?
      return .run (← lowerArgs? arguments) (budget.getD defaultBudget)
  | "init-config" =>
    readSubcommand [] args fun arguments =>
      match positionals arguments with
      | [] => some (.initConfig ⟨"vmt.json"⟩)
      | [path] => (path? path).map .initConfig
      | _ => none
  | "help" => help? args
  | _ => none

def topSwitches : List Switch := [verbose, helpFlag, { long := "version", short := some 'V' }]

/-- What the flags of one argument before the subcommand ask for: a request, or to go on. `seen`
tells whether the flag for messages was given before. -/
def readTop (seen : Bool) : List Found → Option (Bool ⊕ Request)
  | [] => some (.inl seen)
  | .flag "version" :: _ => some (.inr .version)
  | .flag "help" :: _ => some (.inr .help)
  | .flag _ :: rest => if seen then none else readTop true rest
  | _ => none

def requestFrom (seen : Bool) : List String → Option Request
  | [] => none
  | arg :: rest =>
    match readArgument topSwitches arg with
    | .endOfOptions => none
    | .plain name => subcommand? name rest
    | .switches found =>
      match readTop seen found with
      | some (.inl seen) => requestFrom seen rest
      | some (.inr request) => some request
      | none => none

def request? (args : List String) : Option Request := requestFrom false args

end HackStack.Tool
