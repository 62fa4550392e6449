import HackStack.Files.Search
import HackStack.Lowering.Program
import HackStack.Machine.Basic
import HackStack.Options

set_option autoImplicit false

namespace HackStack.Tool

open Files

inductive Failure where
  | readConfig (path : Path) (cause : FileError)
  | parseConfig (path : Path)
  | invalidConfig (path : Path) (cause : OptionsError)
  | invalidOptions (cause : OptionsError)
  | pattern (cause : PatternError)
  | noSources (directory : Path)
  | notASource (input : Path)
  | sources (diagnostics : List Diagnostic)
  | read (path : Path) (cause : FileError)
  | write (path : Path) (cause : FileError)
  | save (cause : FileError)
  | assembly (errors : List Assembly.Error)
  | machine (fault : Fault)

namespace Failure

def message : Failure → String
  | .readConfig path cause => "reading config " ++ path.text ++ ": " ++ cause.message
  | .parseConfig path => "parsing config " ++ path.text
  | .invalidConfig path cause => "invalid config " ++ path.text ++ ": " ++ cause.message
  | .invalidOptions cause => cause.message
  | .pattern cause => cause.message
  | .noSources directory => "no .vm files in " ++ directory.text
  | .notASource input => input.text ++ " is neither a .vm file nor a directory"
  | .sources diagnostics => "translation failed: " ++ Diagnostic.summary diagnostics
  | .read path cause => "reading " ++ path.text ++ ": " ++ cause.message
  | .write path cause => "writing " ++ path.text ++ ": " ++ cause.message
  | .save cause => cause.message
  | .assembly errors => "assembly failed with " ++ Decimal.text errors.length ++ " errors"
  | .machine fault => fault.message

/-- What is shown before the report. -/
def notes : Failure → List String
  | .sources diagnostics => diagnostics.map (·.text)
  | .assembly errors => errors.map fun e => "error: " ++ e.message
  | _ => []

end Failure

/-- The source files of an input: the file itself, or those in a directory in the order of their
paths. Paths with the same components stay in the order in which they are found. -/
def collectSources (t : Tree) (input : Path) : Except Failure (List Path) :=
  if t.isDirectory input then
    match search t (input.join "*.vm") with
    | .error cause => .error (.pattern cause)
    | .ok found =>
      if found.isEmpty then .error (.noSources input) else .ok (found.mergeSort Path.le)
  else if input.extension? = some "vm" then .ok [input]
  else .error (.notASource input)

/-- Where assembly goes if the user does not say: beside a file, or into a directory under its own
name. -/
def defaultOutput (t : Tree) (input : Path) : Path :=
  match t.directory? input with
  | some place => input.join (place.getLast?.getD "out" ++ ".asm")
  | none => input.withExtension "asm"

def unitName (source : Path) : String := source.stem?.getD "Main"

def loadUnit (t : Tree) (source : Path) : Except (List SourceError) SourceUnit :=
  match t.read source with
  | .error cause => .error [.file cause.message]
  | .ok text => SourceUnit.read (unitName source) (source.fileName?.getD source.text) text

def loadUnits (t : Tree) (sources : List Path) : Except Failure (List SourceUnit) :=
  match SourceUnit.gather (sources.map (loadUnit t)) with
  | .error errors => .error (.sources (errors.map Diagnostic.ofError))
  | .ok units => .ok units

def loadOptions (t : Tree) (path : Path) : Except Failure Options :=
  match t.read path with
  | .error cause => .error (.readConfig path cause)
  | .ok text =>
    match Options.ofText? text with
    | none => .error (.parseConfig path)
    | some options =>
      match options.validate with
      | .error cause => .error (.invalidConfig path cause)
      | .ok _ => .ok options

def saveOptions (t : Tree) (options : Options) (path : Path) : Except Failure Tree :=
  match t.write path options.text with
  | .error cause => .error (.save cause)
  | .ok t => .ok t

structure Lowered where
  text : String
  warnings : List Diagnostic

def missingEntry (entry : String) : Diagnostic :=
  { severity := .warning, message := "bootstrap calls " ++ entry ++ " but no unit declares it" }

def lowerInput (t : Tree) (input : Path) (options : Options) (mode : BootstrapMode) :
    Except Failure Lowered := do
  let sources ← collectSources t input
  let units ← loadUnits t sources
  let entry := options.entryPoint
  return {
    text := (Lowering.lowerUnits options mode units).1
    warnings := if mode = .always && !declaresAny units entry then [missingEntry entry] else [] }

end HackStack.Tool
