import HackStack.Command.Basic

set_option autoImplicit false

namespace HackStack

inductive SourceError where
  | parse (message : String) (location : Location)
  | operand (message : String) (location : Location)
  | file (message : String)
  | internal (message : String)
  deriving DecidableEq, Repr

namespace SourceError

def message : SourceError → String
  | .parse message location => "Parse error at " ++ location.text ++ ": " ++ message
  | .operand message location => "Invalid operand at " ++ location.text ++ ": " ++ message
  | .file message => "IO error: " ++ message
  | .internal message => "Internal translator error: " ++ message

def location? : SourceError → Option Location
  | .parse _ location | .operand _ location => some location
  | .file _ | .internal _ => none

end SourceError

inductive Severity where
  | error
  | warning
  deriving DecidableEq, Repr

def Severity.text : Severity → String
  | .error => "error"
  | .warning => "warning"

structure Diagnostic where
  severity : Severity
  message : String
  location? : Option Location := none
  deriving DecidableEq, Repr

namespace Diagnostic

def ofError (e : SourceError) : Diagnostic := ⟨.error, e.message, e.location?⟩

def text (d : Diagnostic) : String := d.severity.text ++ ": " ++ d.message

def count (severity : Severity) (ds : List Diagnostic) : Nat :=
  ds.countP fun d => d.severity = severity

def quantity (n : Nat) (noun : String) : String :=
  Decimal.text n ++ " " ++ noun ++ if n = 1 then "" else "s"

def summary (ds : List Diagnostic) : String :=
  match count .error ds, count .warning ds with
  | 0, 0 => "No errors or warnings"
  | 0, w => quantity w "warning"
  | e, 0 => quantity e "error"
  | e, w => quantity e "error" ++ " and " ++ quantity w "warning"

end Diagnostic

end HackStack
