import HackStack.Assembly.Statement
import HackStack.Text.Lines

set_option autoImplicit false

namespace HackStack.Assembly

/-- The largest number that a constant may denote before it is held against the limit of a word. -/
def maxConstant : Nat := 4294967295

def readLabel (text : List Char) : Except Malformed Statement :=
  if text.getLast? = some ')' then
    let name := text.dropLast
    if isSymbol name then .ok (.label (String.ofList name))
    else .error (.badLabel (String.ofList name))
  else .error (.unterminatedLabel (String.ofList ('(' :: text)))

def readAddress (operand : List Char) : Except Malformed Statement :=
  match Decimal.value? operand with
  | some n =>
    if maxConstant < n then .error (.badConstant (String.ofList operand))
    else if Word.maxLiteral < n then .error (.constantTooLarge n)
    else .ok (.value n.toUInt16)
  | none =>
    if isSymbol operand then .ok (.symbol (String.ofList operand))
    else .error (.badSymbol (String.ofList operand))

def readDest (text : List Char) : Except Malformed (Dest × List Char) :=
  match Text.cutAt? '=' text with
  | none => .ok (.none, text)
  | some (letters, rest) =>
    match Dest.ofText? letters with
    | some dest => .ok (dest, rest)
    | none => .error (.badDest (String.ofList letters))

def readJump (text : List Char) : Except Malformed (Jump × List Char) :=
  match Text.cutAt? ';' text with
  | none => .ok (.never, text)
  | some (before, mnemonic) =>
    match Jump.ofText? (String.ofList mnemonic) with
    | some jump => .ok (jump, before)
    | none => .error (.badJump (String.ofList mnemonic))

def readCompute (text : List Char) : Except Malformed Statement := do
  let (dest, rest) ← readDest text
  let (jump, spelling) ← readJump rest
  match Comp.ofText? (String.ofList spelling) with
  | some comp => .ok (.compute ⟨dest, comp, jump⟩)
  | none => .error (.badComp (String.ofList spelling))

def readLine (line : List Char) : Except Malformed (Option Statement) :=
  match Text.squeeze (Text.beforeComment line) with
  | [] => .ok none
  | '(' :: text => some <$> readLabel text
  | '@' :: operand => some <$> readAddress operand
  | text => some <$> readCompute text

structure Numbered where
  line : Nat
  statement : Statement
  deriving DecidableEq, Repr

structure Reading where
  statements : Array Numbered := #[]
  errors : Array Error := #[]

def Reading.next (r : Reading) (line : List Char × Nat) : Reading :=
  match readLine line.1 with
  | .ok none => r
  | .ok (some s) => { r with statements := r.statements.push ⟨line.2, s⟩ }
  | .error cause => { r with errors := r.errors.push (.malformed line.2 cause) }

/-- The numbered statements of a source, or an error for every malformed line. -/
def read (source : String) : Except (List Error) (List Numbered) :=
  let r := ((Text.lines source.toList).zipIdx 1).foldl Reading.next {}
  if r.errors.isEmpty then .ok r.statements.toList else .error r.errors.toList

end HackStack.Assembly
