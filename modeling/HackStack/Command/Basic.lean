import HackStack.Machine.Word
import HackStack.Text.Decimal

set_option autoImplicit false

namespace HackStack

inductive Operation where
  | add
  | sub
  | neg
  | eq
  | gt
  | lt
  | and
  | or
  | not
  deriving DecidableEq, Repr

namespace Operation

def all : List Operation := [.add, .sub, .neg, .eq, .gt, .lt, .and, .or, .not]

def text : Operation → String
  | .add => "add"
  | .sub => "sub"
  | .neg => "neg"
  | .eq => "eq"
  | .gt => "gt"
  | .lt => "lt"
  | .and => "and"
  | .or => "or"
  | .not => "not"

def ofText? (s : String) : Option Operation := all.find? fun op => op.text == s

def isUnary : Operation → Bool
  | .neg | .not => true
  | _ => false

def stackEffect (op : Operation) : Int := if op.isUnary then 0 else -1

end Operation

inductive Base where
  | lcl
  | arg
  | this
  | that
  deriving DecidableEq, Repr

def Base.symbol : Base → String
  | .lcl => "LCL"
  | .arg => "ARG"
  | .this => "THIS"
  | .that => "THAT"

inductive Addressing where
  /-- The index counts from the address that a register holds. -/
  | indirect (base : Base)
  /-- The index counts from a fixed address. -/
  | direct (base : Word)
  /-- The index itself is the value. -/
  | immediate
  /-- The index names a variable of the unit. -/
  | static
  deriving DecidableEq, Repr

inductive Segment where
  | argument
  | locals
  | this
  | that
  | constant
  | static
  | pointer
  | temp
  deriving DecidableEq, Repr

namespace Segment

def all : List Segment :=
  [.argument, .locals, .this, .that, .constant, .static, .pointer, .temp]

def text : Segment → String
  | .argument => "argument"
  | .locals => "local"
  | .this => "this"
  | .that => "that"
  | .constant => "constant"
  | .static => "static"
  | .pointer => "pointer"
  | .temp => "temp"

def ofText? (s : String) : Option Segment := all.find? fun segment => segment.text == s

def addressing : Segment → Addressing
  | .argument => .indirect .arg
  | .locals => .indirect .lcl
  | .this => .indirect .this
  | .that => .indirect .that
  | .constant => .immediate
  | .static => .static
  | .pointer => .direct 3
  | .temp => .direct 5

def capacity? : Segment → Option Nat
  | .pointer => some 2
  | .temp => some 8
  | _ => none

end Segment

inductive Command where
  | push (segment : Segment) (index : Word)
  | pop (segment : Segment) (index : Word)
  | operate (op : Operation)
  | label (name : String)
  | goto (name : String)
  | ifGoto (name : String)
  | function (name : String) (locals : Word)
  | call (name : String) (args : Word)
  | ret
  deriving DecidableEq, Repr

namespace Command

def keyword : Command → String
  | .push _ _ => "push"
  | .pop _ _ => "pop"
  | .operate op => op.text
  | .label _ => "label"
  | .goto _ => "goto"
  | .ifGoto _ => "if-goto"
  | .function _ _ => "function"
  | .call _ _ => "call"
  | .ret => "return"

def operandText : Command → String
  | .push segment index | .pop segment index =>
    " " ++ segment.text ++ " " ++ Decimal.text index.toNat
  | .label name | .goto name | .ifGoto name => " " ++ name
  | .function name count | .call name count => " " ++ name ++ " " ++ Decimal.text count.toNat
  | .operate _ | .ret => ""

def text (c : Command) : String := c.keyword ++ c.operandText

def declares (name : String) : Command → Bool
  | .function declared _ => declared == name
  | _ => false

end Command

structure Location where
  file : String
  line : Nat
  deriving DecidableEq, Repr

def Location.text (l : Location) : String := l.file ++ ":" ++ Decimal.text l.line

structure Located where
  command : Command
  location : Location
  deriving DecidableEq, Repr

namespace Located

def text (c : Located) : String := c.command.text ++ " (" ++ c.location.text ++ ")"

def sequence (file : String) (commands : List Command) : List Located :=
  (commands.zipIdx 1).map fun c => ⟨c.1, file, c.2⟩

end Located

end HackStack
