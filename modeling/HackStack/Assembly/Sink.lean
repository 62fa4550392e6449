import HackStack.Assembly.Statement

set_option autoImplicit false

namespace HackStack.Text

def takeBytesFrom (kept : List Char) : Nat → List Char → List Char
  | _, [] => kept.reverse
  | size, c :: rest =>
    if c.utf8Size ≤ size then takeBytesFrom (c :: kept) (size - c.utf8Size) rest else kept.reverse

def takeBytes (size : Nat) (text : List Char) : List Char :=
  takeBytesFrom [] size text

end HackStack.Text

namespace HackStack.Assembly

inductive Line where
  | statement (s : Statement)
  | comment (text : String)
  deriving DecidableEq, Repr

namespace Line

def text : Line → String
  | .statement s => s.text
  | .comment text => "// " ++ text

def isInstruction : Line → Bool
  | .statement s => s.isInstruction
  | .comment _ => false

end Line

def render (code : List Line) : String :=
  code.foldl (fun text line => text ++ line.text ++ "\n") ""

/-- A store that could not take all of a text, with the part that it took. -/
structure SinkFull where
  written : String
  deriving DecidableEq, Repr

def SinkFull.message (_ : SinkFull) : String :=
  "IO error while writing assembly: failed to write whole buffer"

def writeWithin (capacity : Nat) (code : List Line) : Except SinkFull String :=
  let text := render code
  if text.utf8ByteSize ≤ capacity then .ok text
  else .error ⟨String.ofList (Text.takeBytes capacity text.toList)⟩

end HackStack.Assembly
