import HackStack.Diagnostic
import HackStack.Text.Lines

set_option autoImplicit false

namespace HackStack.Command

inductive Malformed where
  | operandCount (keyword : String) (expected found : Nat)
  | unknownKeyword (keyword : String)
  | unknownSegment (name : String)
  | negativeNumber (text : String)
  | numberTooLong (text : String)
  | notANumber (text : String)
  | badName (name : String)
  | numberTooLarge (value : Nat)
  | popConstant
  | indexTooLarge (segment : Segment) (index capacity : Nat)
  deriving DecidableEq, Repr

namespace Malformed

def message : Malformed → String
  | .operandCount keyword expected found =>
    "'" ++ keyword ++ "' takes " ++ Diagnostic.quantity expected "operand" ++ ", found " ++
      Decimal.text found
  | .unknownKeyword keyword => "unknown command '" ++ keyword ++ "'"
  | .unknownSegment name => "unknown segment '" ++ name ++ "'"
  | .negativeNumber text => "negative index '" ++ text ++ "'"
  | .numberTooLong text => "index '" ++ text ++ "' out of range"
  | .notANumber text => "expected a number, found '" ++ text ++ "'"
  | .badName name => "invalid name '" ++ name ++ "'"
  | .numberTooLarge value => Decimal.text value ++ " exceeds 32767"
  | .popConstant => "cannot pop into the constant segment"
  | .indexTooLarge segment index capacity =>
    segment.text ++ " index " ++ Decimal.text index ++ " out of range 0.." ++
      Decimal.text (capacity - 1)

/-- Whether the line has the form of a command and only an operand has no meaning. -/
def isOperand : Malformed → Bool
  | .numberTooLarge _ | .popConstant | .indexTooLarge _ _ _ => true
  | _ => false

def toError (cause : Malformed) (location : Location) : SourceError :=
  if cause.isOperand then .operand cause.message location else .parse cause.message location

end Malformed

def maxWord : Nat := 65535

def numberComplaint (word : List Char) : Malformed :=
  if word.head? = some '-' && 1 < word.length then .negativeNumber (String.ofList word)
  else if Decimal.isNumeral word then .numberTooLong (String.ofList word)
  else .notANumber (String.ofList word)

def readNumber (word : List Char) : Except Malformed Word :=
  match Decimal.unsigned? word with
  | none => .error (numberComplaint word)
  | some n =>
    if maxWord < n then .error (numberComplaint word)
    else if Word.maxLiteral < n then .error (.numberTooLarge n)
    else .ok n.toUInt16

def readName (word : List Char) : Except Malformed String :=
  if isSymbol word then .ok (String.ofList word) else .error (.badName (String.ofList word))

def readSegment (word : List Char) : Except Malformed Segment :=
  match Segment.ofText? (String.ofList word) with
  | some segment => .ok segment
  | none => .error (.unknownSegment (String.ofList word))

def checkIndex (segment : Segment) (index : Word) : Except Malformed Unit :=
  match segment.capacity? with
  | some capacity =>
    if capacity ≤ index.toNat then .error (.indexTooLarge segment index.toNat capacity) else .ok ()
  | none => .ok ()

/-- A label name as it is known outside the function around it. -/
def qualify (scope : Option String) (name : String) : String :=
  match scope with
  | some f => f ++ "$" ++ name
  | none => name

def readPush (segment index : List Char) : Except Malformed Command := do
  let segment ← readSegment segment
  let index ← readNumber index
  checkIndex segment index
  return .push segment index

def readPop (segment index : List Char) : Except Malformed Command := do
  let segment ← readSegment segment
  let index ← readNumber index
  if segment = .constant then .error .popConstant
  else
    checkIndex segment index
    return .pop segment index

def readCounted (make : String → Word → Command) (name count : List Char) :
    Except Malformed Command := do
  let name ← readName name
  let count ← readNumber count
  return make name count

def withNone (keyword : String) (operands : List (List Char)) (c : Command) :
    Except Malformed Command :=
  match operands with
  | [] => .ok c
  | _ => .error (.operandCount keyword 0 operands.length)

def withOne (keyword : String) (operands : List (List Char))
    (read : List Char → Except Malformed Command) : Except Malformed Command :=
  match operands with
  | [x] => read x
  | _ => .error (.operandCount keyword 1 operands.length)

def withTwo (keyword : String) (operands : List (List Char))
    (read : List Char → List Char → Except Malformed Command) : Except Malformed Command :=
  match operands with
  | [x, y] => read x y
  | _ => .error (.operandCount keyword 2 operands.length)

def readLabelled (scope : Option String) (make : String → Command) (name : List Char) :
    Except Malformed Command := do
  let name ← readName name
  return make (qualify scope name)

def readKeyword (scope : Option String) (keyword : String) (operands : List (List Char)) :
    Except Malformed Command :=
  match keyword with
  | "push" => withTwo keyword operands readPush
  | "pop" => withTwo keyword operands readPop
  | "label" => withOne keyword operands (readLabelled scope .label)
  | "goto" => withOne keyword operands (readLabelled scope .goto)
  | "if-goto" => withOne keyword operands (readLabelled scope .ifGoto)
  | "function" => withTwo keyword operands (readCounted .function)
  | "call" => withTwo keyword operands (readCounted .call)
  | "return" => withNone keyword operands .ret
  | _ => .error (.unknownKeyword keyword)

def readWords (scope : Option String) : List (List Char) → Except Malformed (Option Command)
  | [] => .ok none
  | word :: operands =>
    let keyword := String.ofList word
    match Operation.ofText? keyword with
    | some op => some <$> withNone keyword operands (.operate op)
    | none => some <$> readKeyword scope keyword operands

def readLine (scope : Option String) (line : List Char) : Except Malformed (Option Command) :=
  readWords scope (Text.words (Text.beforeComment line))

def scopeAfter (scope : Option String) : Option Command → Option String
  | some (.function name _) => some name
  | _ => scope

structure Reading where
  scope : Option String := none
  commands : Array Located := #[]
  errors : Array SourceError := #[]

/-- The reading after one more line. A malformed line leaves the function around it unchanged. -/
def Reading.next (file : String) (r : Reading) (line : List Char × Nat) : Reading :=
  let location : Location := ⟨file, line.2⟩
  match readLine r.scope line.1 with
  | .ok none => r
  | .ok (some c) =>
    { r with scope := scopeAfter r.scope (some c), commands := r.commands.push ⟨c, location⟩ }
  | .error cause => { r with errors := r.errors.push (cause.toError location) }

def readSource (file source : String) : Reading :=
  ((Text.lines source.toList).zipIdx 1).foldl (Reading.next file) {}

def read (file source : String) : Except (List SourceError) (List Located) :=
  let r := readSource file source
  if r.errors.isEmpty then .ok r.commands.toList else .error r.errors.toList

structure Reader where
  file : String
  scope : Option String := none
  deriving DecidableEq, Repr

namespace Reader

def line (r : Reader) (text : List Char) (number : Nat) :
    Except SourceError (Option Command) × Reader :=
  match readLine r.scope text with
  | .ok c => (.ok c, { r with scope := scopeAfter r.scope c })
  | .error cause => (.error (cause.toError ⟨r.file, number⟩), r)

/-- What a whole source reads as, and the reader behind it. No function is around the first line,
whatever the reader has read before. -/
def source (r : Reader) (text : String) : Except (List SourceError) (List Located) × Reader :=
  (read r.file text, { r with scope := (readSource r.file text).scope })

end Reader

end HackStack.Command
