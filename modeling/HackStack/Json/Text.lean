set_option autoImplicit false

/-! # JSON strings

A string is written between quotation marks, with escapes for quotation marks, backslashes and
control characters. An escape of four hexadecimal digits denotes a unit of sixteen bits; two such
units may form one character, and a unit that is half of such a pair denotes nothing by itself. -/

namespace HackStack.Json

def quotationMark : Char := '"'

def backslash : Char := '\\'

def shortEscapes : List (Char × Char) :=
  [('"', '"'), ('\\', '\\'), ('b', Char.ofNat 8), ('f', Char.ofNat 12), ('n', '\n'), ('r', '\r'),
   ('t', '\t')]

def hexPair (n : Nat) : List Char := [Nat.digitChar (n / 16), Nat.digitChar (n % 16)]

def escape (c : Char) : List Char :=
  match shortEscapes.find? fun e => e.2 = c with
  | some e => [backslash, e.1]
  | none => if c.toNat < 32 then backslash :: 'u' :: '0' :: '0' :: hexPair c.toNat else [c]

def quote (s : String) : String :=
  String.ofList (quotationMark :: s.toList.flatMap escape ++ [quotationMark])

def hexValue? (c : Char) : Option Nat :=
  if c.isDigit then some (c.toNat - 48)
  else if 'a' ≤ c && c ≤ 'f' then some (c.toNat - 87)
  else if 'A' ≤ c && c ≤ 'F' then some (c.toNat - 55)
  else none

def hexUnit? (a b c d : Char) : Option Nat := do
  return (((← hexValue? a) * 16 + (← hexValue? b)) * 16 + (← hexValue? c)) * 16 + (← hexValue? d)

/-- The character of a short escape. A slash may be escaped too. -/
def shortEscape? (c : Char) : Option Char :=
  if c = '/' then some '/' else shortEscapes.lookup c

inductive Part where
  | char (c : Char)
  | unit (n : Nat)
  deriving DecidableEq, Repr

/-- The parts of a string up to its closing quotation mark, and the text after it. The parts already
read are in reverse. -/
def scanString (parts : List Part) : List Char → Option (List Part × List Char)
  | [] => none
  | '"' :: rest => some (parts.reverse, rest)
  | '\\' :: 'u' :: a :: b :: c :: d :: rest =>
    match hexUnit? a b c d with
    | some n => scanString (.unit n :: parts) rest
    | none => none
  | '\\' :: c :: rest =>
    match shortEscape? c with
    | some e => scanString (.char e :: parts) rest
    | none => none
  | c :: rest => if c.toNat < 32 then none else scanString (.char c :: parts) rest

def isHighHalf (n : Nat) : Bool := 0xD800 ≤ n && n < 0xDC00

def isLowHalf (n : Nat) : Bool := 0xDC00 ≤ n && n < 0xE000

def joinParts? (text : List Char) : List Part → Option String
  | [] => some (String.ofList text.reverse)
  | .char c :: rest => joinParts? (c :: text) rest
  | .unit n :: .unit k :: rest =>
    if isHighHalf n then
      if isLowHalf k then
        joinParts? (Char.ofNat (0x10000 + (n - 0xD800) * 0x400 + (k - 0xDC00)) :: text) rest
      else none
    else if isLowHalf n then none
    else joinParts? (Char.ofNat n :: text) (.unit k :: rest)
  | .unit n :: rest =>
    if isHighHalf n || isLowHalf n then none else joinParts? (Char.ofNat n :: text) rest

end HackStack.Json
