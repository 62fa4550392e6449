import HackStack.Instruction
import HackStack.Text.Decimal

set_option autoImplicit false

namespace HackStack.Assembly

inductive Statement where
  | value (v : Word)
  | symbol (name : String)
  | compute (c : Compute)
  | label (name : String)
  deriving DecidableEq, Repr

namespace Statement

def text : Statement → String
  | .value v => "@" ++ Decimal.text v.toNat
  | .symbol name => "@" ++ name
  | .compute c => c.text
  | .label name => "(" ++ name ++ ")"

def isInstruction : Statement → Bool
  | .label _ => false
  | _ => true

def assign (dest : Dest) (comp : Comp) : Statement := .compute ⟨dest, comp, .never⟩

def branch (comp : Comp) (jump : Jump) : Statement := .compute ⟨.none, comp, jump⟩

def goto : Statement := branch .zero .always

end Statement

inductive Malformed where
  | unterminatedLabel (text : String)
  | badLabel (name : String)
  | badConstant (digits : String)
  | constantTooLarge (value : Nat)
  | badSymbol (name : String)
  | badDest (text : String)
  | badJump (text : String)
  | badComp (text : String)
  deriving DecidableEq, Repr

def Malformed.message : Malformed → String
  | .unterminatedLabel text => "unterminated label '" ++ text ++ "'"
  | .badLabel name => "invalid label name '" ++ name ++ "'"
  | .badConstant digits => "invalid constant '" ++ digits ++ "'"
  | .constantTooLarge value => "constant " ++ Decimal.text value ++ " exceeds 32767"
  | .badSymbol name => "invalid symbol '" ++ name ++ "'"
  | .badDest text => "invalid destination '" ++ text ++ "'"
  | .badJump text => "invalid jump '" ++ text ++ "'"
  | .badComp text => "invalid computation '" ++ text ++ "'"

inductive Error where
  | malformed (line : Nat) (cause : Malformed)
  | duplicateLabel (line : Nat) (name : String)
  | tooLarge (count : Nat)
  deriving DecidableEq, Repr

def Error.message : Error → String
  | .malformed line cause => "Line " ++ Decimal.text line ++ ": " ++ cause.message
  | .duplicateLabel line name =>
    "Line " ++ Decimal.text line ++ ": duplicate label '" ++ name ++ "'"
  | .tooLarge count => "Program too large: " ++ Decimal.text count ++ " instructions"

end HackStack.Assembly
