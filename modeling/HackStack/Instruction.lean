import HackStack.Machine.Word
import HackStack.Text.Decimal

set_option autoImplicit false

namespace HackStack

inductive Operand where
  | a
  | m
  deriving DecidableEq, Repr

/-- A computation; `y` stands for the second input. -/
inductive Comp where
  | zero
  | one
  | minusOne
  | d
  | notD
  | negD
  | dPlusOne
  | dMinusOne
  | y (o : Operand)
  | notY (o : Operand)
  | negY (o : Operand)
  | yPlusOne (o : Operand)
  | yMinusOne (o : Operand)
  | dPlusY (o : Operand)
  | dMinusY (o : Operand)
  | yMinusD (o : Operand)
  | dAndY (o : Operand)
  | dOrY (o : Operand)
  deriving DecidableEq, Repr

namespace Comp

def ofOperand (o : Operand) : List Comp :=
  [.y o, .notY o, .negY o, .yPlusOne o, .yMinusOne o, .dPlusY o, .dMinusY o, .yMinusD o, .dAndY o,
   .dOrY o]

def all : List Comp :=
  [.zero, .one, .minusOne, .d, .notD, .negD, .dPlusOne, .dMinusOne] ++ ofOperand .a ++ ofOperand .m

/-- The spellings of a computation: the printed one, then the one with its operands exchanged. -/
def spellings : Comp → List String
  | .zero => ["0"]
  | .one => ["1"]
  | .minusOne => ["-1"]
  | .d => ["D"]
  | .notD => ["!D"]
  | .negD => ["-D"]
  | .dPlusOne => ["D+1", "1+D"]
  | .dMinusOne => ["D-1"]
  | .y .a => ["A"]
  | .y .m => ["M"]
  | .notY .a => ["!A"]
  | .notY .m => ["!M"]
  | .negY .a => ["-A"]
  | .negY .m => ["-M"]
  | .yPlusOne .a => ["A+1", "1+A"]
  | .yPlusOne .m => ["M+1", "1+M"]
  | .yMinusOne .a => ["A-1"]
  | .yMinusOne .m => ["M-1"]
  | .dPlusY .a => ["D+A", "A+D"]
  | .dPlusY .m => ["D+M", "M+D"]
  | .dMinusY .a => ["D-A"]
  | .dMinusY .m => ["D-M"]
  | .yMinusD .a => ["A-D"]
  | .yMinusD .m => ["M-D"]
  | .dAndY .a => ["D&A", "A&D"]
  | .dAndY .m => ["D&M", "M&D"]
  | .dOrY .a => ["D|A", "A|D"]
  | .dOrY .m => ["D|M", "M|D"]

def text (c : Comp) : String := c.spellings.headD ""

def ofText? (s : String) : Option Comp := all.find? fun c => c.spellings.contains s

def readsMemory : Comp → Bool
  | .y o | .notY o | .negY o | .yPlusOne o | .yMinusOne o | .dPlusY o | .dMinusY o | .yMinusD o
  | .dAndY o | .dOrY o => o = .m
  | _ => false

def control : Comp → Word
  | .zero => 0b101010
  | .one => 0b111111
  | .minusOne => 0b111010
  | .d => 0b001100
  | .notD => 0b001101
  | .negD => 0b001111
  | .dPlusOne => 0b011111
  | .dMinusOne => 0b001110
  | .y _ => 0b110000
  | .notY _ => 0b110001
  | .negY _ => 0b110011
  | .yPlusOne _ => 0b110111
  | .yMinusOne _ => 0b110010
  | .dPlusY _ => 0b000010
  | .dMinusY _ => 0b010011
  | .yMinusD _ => 0b000111
  | .dAndY _ => 0b000000
  | .dOrY _ => 0b010101

/-- The seven bits of a computation in an instruction: the choice of the second input, then the
control bits. -/
def bits (c : Comp) : Word := if c.readsMemory then 0b1000000 ||| c.control else c.control

def ofBits? (w : Word) : Option Comp := all.find? fun c => c.bits == w

theorem ofBits?_bits (c : Comp) : ofBits? c.bits = some c := by
  cases c with
  | y o | notY o | negY o | yPlusOne o | yMinusOne o | dPlusY o | dMinusY o | yMinusD o | dAndY o
  | dOrY o => cases o <;> rfl
  | _ => rfl

def eval (c : Comp) (d y : Word) : Word :=
  match c with
  | .zero => 0
  | .one => 1
  | .minusOne => -1
  | .d => d
  | .notD => ~~~d
  | .negD => -d
  | .dPlusOne => d + 1
  | .dMinusOne => d - 1
  | .y _ => y
  | .notY _ => ~~~y
  | .negY _ => -y
  | .yPlusOne _ => y + 1
  | .yMinusOne _ => y - 1
  | .dPlusY _ => d + y
  | .dMinusY _ => d - y
  | .yMinusD _ => y - d
  | .dAndY _ => d &&& y
  | .dOrY _ => d ||| y

end Comp

structure Dest where
  a : Bool
  d : Bool
  m : Bool
  deriving DecidableEq, Repr

namespace Dest

def none : Dest := ⟨false, false, false⟩

def toA : Dest := ⟨true, false, false⟩

def toD : Dest := ⟨false, true, false⟩

def toM : Dest := ⟨false, false, true⟩

def toAM : Dest := ⟨true, false, true⟩

def text (s : Dest) : String :=
  (if s.a then "A" else "") ++ (if s.m then "M" else "") ++ (if s.d then "D" else "")

def add? (s : Dest) : Char → Option Dest
  | 'A' => if s.a then .none else some { s with a := true }
  | 'D' => if s.d then .none else some { s with d := true }
  | 'M' => if s.m then .none else some { s with m := true }
  | _ => .none

/-- The set spelled by one or more letters in any order, each at most once. -/
def ofText? (letters : List Char) : Option Dest :=
  if letters.isEmpty then .none else letters.foldlM add? Dest.none

def bits (s : Dest) : Word :=
  (if s.a then 4 else 0) ||| (if s.d then 2 else 0) ||| (if s.m then 1 else 0)

def ofBits (w : Word) : Dest := ⟨w &&& 4 != 0, w &&& 2 != 0, w &&& 1 != 0⟩

theorem ofBits_bits (s : Dest) : ofBits s.bits = s := by
  obtain ⟨a, d, m⟩ := s
  cases a <;> cases d <;> cases m <;> rfl

def ofBits? (w : Word) : Option Dest := if 0 < w && w < 8 then some (ofBits w) else .none

end Dest

/-- A set of signs: below zero, zero, above zero. -/
structure Jump where
  lt : Bool
  eq : Bool
  gt : Bool
  deriving DecidableEq, Repr

namespace Jump

def never : Jump := ⟨false, false, false⟩

def always : Jump := ⟨true, true, true⟩

def ifZero : Jump := ⟨false, true, false⟩

def ifNonzero : Jump := ⟨true, false, true⟩

def ifPositive : Jump := ⟨false, false, true⟩

def ifNegative : Jump := ⟨true, false, false⟩

/-- Every condition that can be met. -/
def all : List Jump :=
  [ifPositive, ifZero, ⟨false, true, true⟩, ifNegative, ifNonzero, ⟨true, true, false⟩, always]

def text : Jump → String
  | ⟨false, false, false⟩ => ""
  | ⟨false, false, true⟩ => "JGT"
  | ⟨false, true, false⟩ => "JEQ"
  | ⟨false, true, true⟩ => "JGE"
  | ⟨true, false, false⟩ => "JLT"
  | ⟨true, false, true⟩ => "JNE"
  | ⟨true, true, false⟩ => "JLE"
  | ⟨true, true, true⟩ => "JMP"

def ofText? (s : String) : Option Jump := all.find? fun j => j.text == s

def bits (j : Jump) : Word :=
  (if j.lt then 4 else 0) ||| (if j.eq then 2 else 0) ||| (if j.gt then 1 else 0)

def ofBits (w : Word) : Jump := ⟨w &&& 4 != 0, w &&& 2 != 0, w &&& 1 != 0⟩

theorem ofBits_bits (j : Jump) : ofBits j.bits = j := by
  obtain ⟨lt, eq, gt⟩ := j
  cases lt <;> cases eq <;> cases gt <;> rfl

def ofBits? (w : Word) : Option Jump := if 0 < w && w < 8 then some (ofBits w) else none

def holds (j : Jump) (result : Word) : Bool :=
  if result == 0 then j.eq else if Word.isNegative result then j.lt else j.gt

end Jump

structure Compute where
  dest : Dest := .none
  comp : Comp
  jump : Jump := .never
  deriving DecidableEq, Repr

def Compute.text (c : Compute) : String :=
  (if c.dest = .none then "" else c.dest.text ++ "=") ++ c.comp.text ++
    (if c.jump = .never then "" else ";" ++ c.jump.text)

inductive Instruction where
  | address (value : Word)
  | compute (c : Compute)
  deriving DecidableEq, Repr

namespace Instruction

def text : Instruction → String
  | .address value => "@" ++ Decimal.text value.toNat
  | .compute c => c.text

/-- The word of an instruction. An address keeps its low fifteen bits. -/
def encode : Instruction → Word
  | .address value => value &&& 0x7FFF
  | .compute c => (0xE000 : Word) ||| (c.comp.bits <<< 6) ||| (c.dest.bits <<< 3) ||| c.jump.bits

/-- The instruction of a word, if its computation is known. The two bits after the first are not
looked at. -/
def decode? (w : Word) : Option Instruction :=
  if w &&& 0x8000 == 0 then some (.address w)
  else (Comp.ofBits? ((w >>> 6) &&& 0x7F)).map fun comp =>
    .compute ⟨Dest.ofBits (w >>> 3), comp, Jump.ofBits w⟩

end Instruction

end HackStack
