import HackStack.Json.Text
import HackStack.Text.Decimal

set_option autoImplicit false

namespace HackStack.Json

/-- A JSON value. A number keeps its value if it is written as a natural number, and a string keeps
its text if it has one. -/
inductive Value where
  | null
  | bool (b : Bool)
  | number (natural? : Option Nat)
  | string (text? : Option String)
  | array (items : List Value)
  | object (members : List (Option String × Value))

def isBlank (c : Char) : Bool := c = ' ' || c = '\n' || c = '\t' || c = '\r'

def skipBlank (text : List Char) : List Char := text.dropWhile isBlank

def scanDigits (text : List Char) : Option (List Char × List Char) :=
  let digits := text.takeWhile Char.isDigit
  if digits.isEmpty then none else some (digits, text.dropWhile Char.isDigit)

def scanFraction : List Char → Option (Bool × List Char)
  | '.' :: rest => (scanDigits rest).map fun scanned => (true, scanned.2)
  | text => some (false, text)

def skipSign : List Char → List Char
  | '+' :: rest => rest
  | '-' :: rest => rest
  | text => text

def scanExponent : List Char → Option (Bool × List Char)
  | 'e' :: rest => (scanDigits (skipSign rest)).map fun scanned => (true, scanned.2)
  | 'E' :: rest => (scanDigits (skipSign rest)).map fun scanned => (true, scanned.2)
  | text => some (false, text)

/-- The number without a sign at the start of a text, and the text after it. A leading zero stands
alone. -/
def scanUnsigned (text : List Char) : Option (Option Nat × List Char) := do
  let (digits, rest) ← scanDigits text
  if digits.head? = some '0' && 1 < digits.length then none
  else
    let (fraction, rest) ← scanFraction rest
    let (exponent, rest) ← scanExponent rest
    return (if fraction || exponent then none else some (Decimal.value digits), rest)

def scanNumber : List Char → Option (Value × List Char)
  | '-' :: rest => (scanUnsigned rest).map fun scanned => (.number none, scanned.2)
  | text => (scanUnsigned text).map fun scanned => (.number scanned.1, scanned.2)

def readString (text : List Char) : Option (Option String × List Char) :=
  (scanString [] text).map fun scanned => (joinParts? [] scanned.1, scanned.2)

def readKey (text : List Char) : Option (Option String × List Char) :=
  match skipBlank text with
  | '"' :: rest =>
    match readString rest with
    | none => none
    | some (key, rest) =>
      match skipBlank rest with
      | ':' :: rest => some (key, rest)
      | _ => none
  | _ => none

mutual

def readValue : Nat → List Char → Option (Value × List Char)
  | 0, _ => none
  | fuel + 1, text =>
    match skipBlank text with
    | '"' :: rest => (readString rest).map fun read => (.string read.1, read.2)
    | '[' :: rest =>
      match skipBlank rest with
      | ']' :: rest => some (.array [], rest)
      | rest => readItems fuel [] rest
    | '\x7b' :: rest =>
      match skipBlank rest with
      | '\x7d' :: rest => some (.object [], rest)
      | rest => readMembers fuel [] rest
    | 't' :: 'r' :: 'u' :: 'e' :: rest => some (.bool true, rest)
    | 'f' :: 'a' :: 'l' :: 's' :: 'e' :: rest => some (.bool false, rest)
    | 'n' :: 'u' :: 'l' :: 'l' :: rest => some (.null, rest)
    | rest => scanNumber rest

/-- The items of an array up to its closing bracket. The items already read are in reverse. -/
def readItems : Nat → List Value → List Char → Option (Value × List Char)
  | 0, _, _ => none
  | fuel + 1, items, text =>
    match readValue fuel text with
    | none => none
    | some (item, rest) =>
      match skipBlank rest with
      | ',' :: rest => readItems fuel (item :: items) rest
      | ']' :: rest => some (.array (item :: items).reverse, rest)
      | _ => none

def readMembers : Nat → List (Option String × Value) → List Char → Option (Value × List Char)
  | 0, _, _ => none
  | fuel + 1, members, text =>
    match readKey text with
    | none => none
    | some (key, rest) =>
      match readValue fuel rest with
      | none => none
      | some (value, rest) =>
        match skipBlank rest with
        | ',' :: rest => readMembers fuel ((key, value) :: members) rest
        | '\x7d' :: rest => some (.object ((key, value) :: members).reverse, rest)
        | _ => none

end

def parse? (text : String) : Option Value :=
  match readValue (2 * text.length + 2) text.toList with
  | some (value, rest) => if (skipBlank rest).isEmpty then some value else none
  | none => none

end HackStack.Json
