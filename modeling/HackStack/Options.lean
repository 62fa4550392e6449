import HackStack.Json.Value
import HackStack.Machine.Word
import HackStack.Text.Decimal
import HackStack.Text.Lines

set_option autoImplicit false

namespace HackStack

structure Options where
  stackBase : Word := 256
  entryPoint : String := "Sys.init"
  /-- Whether each fragment follows a comment that shows its command. -/
  annotate : Bool := true
  deriving DecidableEq, Repr

inductive OptionsError where
  | stackBaseTooLarge (value : Nat)
  | badEntryPoint (name : String)
  deriving DecidableEq, Repr

def OptionsError.message : OptionsError → String
  | .stackBaseTooLarge value => "stack_base " ++ Decimal.text value ++ " exceeds 32767"
  | .badEntryPoint name => "entry_point '" ++ name ++ "' is not a valid function name"

namespace Options

/-- Refuses options that the bootstrap could not put into code. -/
def validate (o : Options) : Except OptionsError Unit :=
  if Word.maxLiteral < o.stackBase.toNat then .error (.stackBaseTooLarge o.stackBase.toNat)
  else if isSymbol o.entryPoint.toList then .ok ()
  else .error (.badEntryPoint o.entryPoint)

def wordOf : Json.Value → Option Word
  | .number (some n) => if n ≤ 65535 then some n.toUInt16 else none
  | _ => none

def textOf : Json.Value → Option String
  | .string text => text
  | _ => none

def boolOf : Json.Value → Option Bool
  | .bool b => some b
  | _ => none

/-- The member of a name, or a default if there is none. A second member of that name is refused. -/
def member {α : Type} (members : List (Option String × Json.Value)) (name : String) (default : α)
    (decode : Json.Value → Option α) : Option α :=
  match members.filter fun m => m.1 = some name with
  | [] => some default
  | [m] => decode m.2
  | _ => none

def item {α : Type} (items : List Json.Value) (i : Nat) (default : α)
    (decode : Json.Value → Option α) : Option α :=
  match items[i]? with
  | none => some default
  | some value => decode value

/-- An object has a member for each choice. An array gives the choices in order and may be shorter. -/
def ofValue? : Json.Value → Option Options
  | .object members => do
    let d : Options := {}
    if members.any fun m => m.1.isNone then none
    else
      return ⟨← member members "stack_base" d.stackBase wordOf,
        ← member members "entry_point" d.entryPoint textOf,
        ← member members "annotate" d.annotate boolOf⟩
  | .array items => do
    let d : Options := {}
    if 3 < items.length then none
    else
      return ⟨← item items 0 d.stackBase wordOf, ← item items 1 d.entryPoint textOf,
        ← item items 2 d.annotate boolOf⟩
  | _ => none

def ofText? (text : String) : Option Options := (Json.parse? text).bind ofValue?

def text (o : Options) : String :=
  "\x7b\n  \"stack_base\": " ++ Decimal.text o.stackBase.toNat ++
    ",\n  \"entry_point\": " ++ Json.quote o.entryPoint ++
    ",\n  \"annotate\": " ++ (if o.annotate then "true" else "false") ++ "\n\x7d"

end Options

end HackStack
