import HackStack.Assembly.Statement
import HackStack.Command.Basic

set_option autoImplicit false

namespace HackStack.Lowering

open Assembly Statement

def capitals : Operation → String
  | .add => "ADD"
  | .sub => "SUB"
  | .neg => "NEG"
  | .eq => "EQ"
  | .gt => "GT"
  | .lt => "LT"
  | .and => "AND"
  | .or => "OR"
  | .not => "NOT"

def trueLabel (unit : String) (op : Operation) (position : Nat) : String :=
  unit ++ "." ++ capitals op ++ "_TRUE." ++ Decimal.text position

def endLabel (unit : String) (op : Operation) (position : Nat) : String :=
  unit ++ "." ++ capitals op ++ "_END." ++ Decimal.text position

def returnLabel (callee : String) (position : Nat) : String :=
  callee ++ "$ret." ++ Decimal.text position

def staticSymbol (unit : String) (index : Word) : String :=
  unit ++ "." ++ Decimal.text index.toNat

structure Names where
  unit : String
  position : Nat := 0
  deriving DecidableEq, Repr

/-- The names of another unit. Positions go on. -/
def Names.setUnit (n : Names) (unit : String) : Names := { n with unit := unit }

def Names.advance (n : Names) (count : Nat) : Names := { n with position := n.position + count }

def stackPointer : String := "SP"

/-- The cell that keeps an address while the stack pointer moves. -/
def scratch : String := "R13"

/-- The cell that keeps the return address while the frame is taken down. -/
def returnScratch : String := "R14"

def frameWords : Word := 5

def savedRegisters : List Base := [.lcl, .arg, .this, .that]

/-- The base registers in the order in which a return restores them, each with its distance below
the frame's end. -/
def restoreOrder : List (Base × Word) := [(.that, 1), (.this, 2), (.arg, 3), (.lcl, 4)]

def pushD : List Statement :=
  [.symbol stackPointer, assign .toA (.y .m), assign .toM .d, .symbol stackPointer,
   assign .toM (.yPlusOne .m)]

def popD : List Statement :=
  [.symbol stackPointer, assign .toAM (.yMinusOne .m), assign .toD (.y .m)]

def segmentAddress (base : Base) (index : Word) (into : Dest) : List Statement :=
  [.symbol base.symbol, assign .toD (.y .m), .value index, assign into (.dPlusY .a)]

def saveRegister (base : Base) : List Statement :=
  [.symbol base.symbol, assign .toD (.y .m)] ++ pushD

def restoreRegister (base : Base) (offset : Word) : List Statement :=
  [.symbol scratch, assign .toD (.y .m), .value offset, assign .toA (.dMinusY .a),
   assign .toD (.y .m), .symbol base.symbol, assign .toM .d]

/-- Points the argument and local registers at the new frame. The two constants are subtracted one by
one, so that each fits into an address instruction. -/
def enterFrame (args : Word) : List Statement :=
  [.symbol stackPointer, assign .toD (.y .m), .value frameWords, assign .toD (.dMinusY .a),
   .value args, assign .toD (.dMinusY .a), .symbol Base.arg.symbol, assign .toM .d,
   .symbol stackPointer, assign .toD (.y .m), .symbol Base.lcl.symbol, assign .toM .d]

def call (target : String) (args : Word) (returnTo : String) : List Statement :=
  [.symbol returnTo, assign .toD (.y .a)] ++ pushD ++ savedRegisters.flatMap saveRegister ++
    enterFrame args ++ [.symbol target, goto, .label returnTo]

/-- Keeps the frame's end and the return address. The address is read before the result is stored,
since without arguments the result takes its place. -/
def leaveFrame : List Statement :=
  [.symbol Base.lcl.symbol, assign .toD (.y .m), .symbol scratch, assign .toM .d,
   .value frameWords, assign .toA (.dMinusY .a), assign .toD (.y .m), .symbol returnScratch,
   assign .toM .d]

def storeResult : List Statement :=
  popD ++ [.symbol Base.arg.symbol, assign .toA (.y .m), assign .toM .d, .symbol Base.arg.symbol,
    assign .toD (.yPlusOne .m), .symbol stackPointer, assign .toM .d]

def ret : List Statement :=
  leaveFrame ++ storeResult ++ restoreOrder.flatMap (fun r => restoreRegister r.1 r.2) ++
    [.symbol returnScratch, assign .toA (.y .m), goto]

def bootstrap (stackBase : Word) (entry returnTo : String) : List Statement :=
  [.value stackBase, assign .toD (.y .a), .symbol stackPointer, assign .toM .d] ++
    call entry 0 returnTo

def push (unit : String) (segment : Segment) (index : Word) : List Statement :=
  (match segment.addressing with
    | .immediate => [.value index, assign .toD (.y .a)]
    | .static => [.symbol (staticSymbol unit index), assign .toD (.y .m)]
    | .indirect base => segmentAddress base index .toA ++ [assign .toD (.y .m)]
    | .direct base => [.value (base + index), assign .toD (.y .m)]) ++ pushD

/-- Pops into the cell of a segment. The address of a cell behind a base register is found before the
stack pointer moves. A word popped into an immediate value is dropped. -/
def pop (unit : String) (segment : Segment) (index : Word) : List Statement :=
  match segment.addressing with
  | .immediate => [.symbol stackPointer, assign .toM (.yMinusOne .m)]
  | .static => popD ++ [.symbol (staticSymbol unit index), assign .toM .d]
  | .indirect base =>
    segmentAddress base index .toD ++ [.symbol scratch, assign .toM .d] ++ popD ++
      [.symbol scratch, assign .toA (.y .m), assign .toM .d]
  | .direct base => popD ++ [.value (base + index), assign .toM .d]

def binary (comp : Comp) : List Statement :=
  [.symbol stackPointer, assign .toAM (.yMinusOne .m), assign .toD (.y .m),
   assign .toA (.yMinusOne .a), assign .toM comp]

def unary (comp : Comp) : List Statement :=
  [.symbol stackPointer, assign .toA (.yMinusOne .m), assign .toM comp]

def comparison (unit : String) (op : Operation) (condition : Jump) (position : Nat) :
    List Statement :=
  [.symbol stackPointer, assign .toAM (.yMinusOne .m), assign .toD (.y .m),
   assign .toA (.yMinusOne .a), assign .toD (.yMinusD .m),
   .symbol (trueLabel unit op position), branch .d condition,
   .symbol stackPointer, assign .toA (.yMinusOne .m), assign .toM .zero,
   .symbol (endLabel unit op position), goto,
   .label (trueLabel unit op position),
   .symbol stackPointer, assign .toA (.yMinusOne .m), assign .toM .minusOne,
   .label (endLabel unit op position)]

def operate (unit : String) (op : Operation) (position : Nat) : List Statement :=
  match op with
  | .add => binary (.dPlusY .m)
  | .sub => binary (.yMinusD .m)
  | .and => binary (.dAndY .m)
  | .or => binary (.dOrY .m)
  | .neg => unary (.negY .m)
  | .not => unary (.notY .m)
  | .eq => comparison unit op .ifZero position
  | .gt => comparison unit op .ifPositive position
  | .lt => comparison unit op .ifNegative position

def function (unit name : String) (locals : Word) : List Statement :=
  .label name :: (List.replicate locals.toNat (push unit .constant 0)).flatten

def fragment (unit : String) (position : Nat) : Command → List Statement
  | .push segment index => push unit segment index
  | .pop segment index => pop unit segment index
  | .operate op => operate unit op position
  | .label name => [.label name]
  | .goto name => [.symbol name, goto]
  | .ifGoto name => popD ++ [.symbol name, branch .d .ifNonzero]
  | .function name locals => function unit name locals
  | .call name args => call name args (returnLabel name position)
  | .ret => ret

/-- The number of positions that a command uses: one for itself and one for every zero pushed at the
entry of a function. -/
def positions : Command → Nat
  | .function _ locals => locals.toNat + 1
  | _ => 1

end HackStack.Lowering
