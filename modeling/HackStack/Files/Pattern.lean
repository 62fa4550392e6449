import HackStack.Text.Decimal

set_option autoImplicit false

/-! # File name patterns

In a pattern `?` stands for any character, `*` for any text, brackets for one character of a set, and
`**` as a whole component for any number of directories.

What it is for a name to have a form is said by `hasForm`. Trying every end of the name at every `*`
takes too long, so `matchesName` goes through the tokens once and keeps the answers for all ends of the
name; `matchesName_eq` says that it answers the same. -/

namespace HackStack.Files

structure CharRange where
  first : Char
  last : Char
  deriving DecidableEq, Repr

def inRanges (ranges : List CharRange) (c : Char) : Bool :=
  ranges.any fun r => r.first ≤ c && c ≤ r.last

inductive Token where
  | char (c : Char)
  | anyChar
  | anyText
  | anyDirectories
  | oneOf (ranges : List CharRange)
  | noneOf (ranges : List CharRange)
  deriving DecidableEq, Repr

inductive PatternFault where
  | wildcards
  | recursive
  | range
  deriving DecidableEq, Repr

def PatternFault.message : PatternFault → String
  | .wildcards => "wildcards are either regular `*` or recursive `**`"
  | .recursive => "recursive wildcards must form a single path component"
  | .range => "invalid range pattern"

structure PatternError where
  position : Nat
  fault : PatternFault
  deriving DecidableEq, Repr

def PatternError.message (e : PatternError) : String :=
  "Pattern syntax error near position " ++ Decimal.text e.position ++ ": " ++ e.fault.message

def readRanges : List Char → List CharRange
  | first :: '-' :: last :: rest => ⟨first, last⟩ :: readRanges rest
  | c :: rest => ⟨c, c⟩ :: readRanges rest
  | [] => []

/-- The characters up to the closing bracket, of which the first may be a bracket itself, and the
text after it. -/
def cutRange? : List Char → Option (List Char × List Char)
  | [] => none
  | first :: rest =>
    match rest.dropWhile (· != ']') with
    | [] => none
    | _ :: after => some (first :: rest.takeWhile (· != ']'), after)

def readRange? : List Char → Option (Token × List Char)
  | '!' :: text => (cutRange? text).map fun cut => (.noneOf (readRanges cut.1), cut.2)
  | text => (cutRange? text).map fun cut => (.oneOf (readRanges cut.1), cut.2)

/-- The tokens of a text with some tokens before it in reverse. `position` counts the characters
before the text, and `boundary` tells whether a component starts there. -/
def readTokens (fuel position : Nat) (boundary : Bool) (tokens : List Token) (text : List Char) :
    Except PatternError (List Token) :=
  match fuel, text with
  | 0, _ | _, [] => .ok tokens.reverse
  | fuel + 1, '?' :: rest => readTokens fuel (position + 1) false (.anyChar :: tokens) rest
  | _ + 1, '*' :: '*' :: '*' :: _ => .error ⟨position + 2, .wildcards⟩
  | fuel + 1, '*' :: '*' :: rest =>
    if boundary then
      let tokens :=
        if 1 < tokens.length && tokens.head? = some .anyDirectories then tokens
        else .anyDirectories :: tokens
      match rest with
      | '/' :: rest => readTokens fuel (position + 3) true tokens rest
      | [] => .ok tokens.reverse
      | _ => .error ⟨position + 2, .recursive⟩
    else .error ⟨position - 1, .recursive⟩
  | fuel + 1, '*' :: rest => readTokens fuel (position + 1) false (.anyText :: tokens) rest
  | fuel + 1, '[' :: rest =>
    match readRange? rest with
    | some (token, after) =>
      readTokens fuel (position + 1 + (rest.length - after.length)) false (token :: tokens) after
    | none => .error ⟨position, .range⟩
  | fuel + 1, c :: rest => readTokens fuel (position + 1) (c = '/') (.char c :: tokens) rest

def parsePattern (text : List Char) : Except PatternError (List Token) :=
  readTokens text.length 0 true [] text

def Token.accepts (c : Char) : Token → Bool
  | .char e => c = e
  | .anyChar => true
  | .oneOf ranges => inRanges ranges c
  | .noneOf ranges => !inRanges ranges c
  | .anyText | .anyDirectories => false

def Token.isText : Token → Bool
  | .anyText | .anyDirectories => true
  | _ => false

def anyEnd (p : List Char → Bool) : List Char → Bool
  | [] => p []
  | c :: text => p (c :: text) || anyEnd p text

def startsWith (token : Token) (p : List Char → Bool) : List Char → Bool
  | [] => false
  | c :: text => token.accepts c && p text

def hasForm : List Token → List Char → Bool
  | [] => List.isEmpty
  | token :: tokens =>
    if token.isText then anyEnd (hasForm tokens) else startsWith token (hasForm tokens)

/-- The answers of a property on all ends of a text, the whole text first. -/
def onEnds (p : List Char → Bool) : List Char → List Bool
  | [] => [p []]
  | c :: text => p (c :: text) :: onEnds p text

def orLater (answers : List Bool) : List Bool :=
  answers.foldr (fun answer later => (answer || later.headD false) :: later) []

def tokenOnEnds (text : List Char) (token : Token) (answers : List Bool) : List Bool :=
  if token.isText then orLater answers
  else List.zipWith (fun c answer => token.accepts c && answer) text (answers.drop 1) ++ [false]

def formOnEnds (tokens : List Token) (name : List Char) : List Bool :=
  tokens.foldr (tokenOnEnds name) (onEnds List.isEmpty name)

def matchesName (tokens : List Token) (name : List Char) : Bool := (formOnEnds tokens name).headD false

theorem headD_onEnds (p : List Char → Bool) (text : List Char) : (onEnds p text).headD false = p text := by
  cases text <;> rfl

theorem orLater_onEnds (p : List Char → Bool) (text : List Char) :
    orLater (onEnds p text) = onEnds (anyEnd p) text := by
  induction text with
  | nil => simp [orLater, onEnds, anyEnd]
  | cons c text ih =>
    have h : orLater (onEnds p (c :: text)) =
        (p (c :: text) || (orLater (onEnds p text)).headD false) :: orLater (onEnds p text) := rfl
    rw [h, ih, headD_onEnds]
    rfl

theorem zipWith_onEnds (token : Token) (p : List Char → Bool) (text : List Char) :
    List.zipWith (fun c answer => token.accepts c && answer) text ((onEnds p text).drop 1) ++ [false] =
      onEnds (startsWith token p) text := by
  induction text with
  | nil => rfl
  | cons c text ih =>
    cases text with
    | nil => rfl
    | cons d text => simpa [onEnds, startsWith] using ih

theorem tokenOnEnds_onEnds (tokens : List Token) (token : Token) (name : List Char) :
    tokenOnEnds name token (onEnds (hasForm tokens) name) = onEnds (hasForm (token :: tokens)) name := by
  simp only [tokenOnEnds, hasForm]
  split
  · exact orLater_onEnds _ _
  · exact zipWith_onEnds _ _ _

theorem formOnEnds_eq (tokens : List Token) (name : List Char) :
    formOnEnds tokens name = onEnds (hasForm tokens) name := by
  induction tokens with
  | nil => rfl
  | cons token tokens ih =>
    have h : formOnEnds (token :: tokens) name = tokenOnEnds name token (formOnEnds tokens name) := rfl
    rw [h, ih, tokenOnEnds_onEnds]

theorem matchesName_eq (tokens : List Token) (name : List Char) :
    matchesName tokens name = hasForm tokens name := by
  rw [matchesName, formOnEnds_eq, headD_onEnds]

def literal? : List Token → Option (List Char)
  | [] => some []
  | .char c :: tokens => (literal? tokens).map (c :: ·)
  | _ => none

end HackStack.Files
