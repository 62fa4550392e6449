set_option autoImplicit false

namespace HackStack.Text

/-- The characters with the property `White_Space`, as closed ranges of code points. -/
def blankRanges : List (Nat × Nat) :=
  [(0x09, 0x0D), (0x20, 0x20), (0x85, 0x85), (0xA0, 0xA0), (0x1680, 0x1680), (0x2000, 0x200A),
   (0x2028, 0x2029), (0x202F, 0x202F), (0x205F, 0x205F), (0x3000, 0x3000)]

def isBlank (c : Char) : Bool :=
  blankRanges.any fun range => range.1 ≤ c.toNat && c.toNat ≤ range.2

def pieces (sep : Char) (text : List Char) : List Char × List (List Char) :=
  text.foldr (fun c cut => if c = sep then ([], cut.1 :: cut.2) else (c :: cut.1, cut.2)) ([], [])

def splitAt (sep : Char) (text : List Char) : List (List Char) :=
  (pieces sep text).1 :: (pieces sep text).2

def dropReturn (line : List Char) : List Char :=
  if line.getLast? = some '\r' then line.dropLast else line

/-- The lines of a text. Text after the last line feed is a line if it is not empty, and keeps its
carriage return. -/
def lines (text : List Char) : List (List Char) :=
  let cut := splitAt '\n' text
  let last := cut.getLast?.getD []
  cut.dropLast.map dropReturn ++ if last.isEmpty then [] else [last]

def beforeCommentFrom (kept : List Char) : List Char → List Char
  | '/' :: '/' :: _ => kept.reverse
  | c :: rest => beforeCommentFrom (c :: kept) rest
  | [] => kept.reverse

def beforeComment (line : List Char) : List Char :=
  beforeCommentFrom [] line

/-- The word under construction and the words after it, read from the right. -/
def wordStep (c : Char) (read : List Char × List (List Char)) : List Char × List (List Char) :=
  if isBlank c then ([], if read.1.isEmpty then read.2 else read.1 :: read.2)
  else (c :: read.1, read.2)

def words (line : List Char) : List (List Char) :=
  let read := line.foldr wordStep ([], [])
  if read.1.isEmpty then read.2 else read.1 :: read.2

def squeeze (line : List Char) : List Char :=
  line.filter fun c => !isBlank c

def cutAt? (sep : Char) (text : List Char) : Option (List Char × List Char) :=
  match text.dropWhile (· != sep) with
  | [] => none
  | _ :: rest => some (text.takeWhile (· != sep), rest)

end HackStack.Text

namespace HackStack

def isSymbolMark (c : Char) : Bool := c = '_' || c = '.' || c = '$' || c = ':'

def isSymbolStart (c : Char) : Bool := c.isAlpha || isSymbolMark c

def isSymbolChar (c : Char) : Bool := c.isAlphanum || isSymbolMark c

def isSymbol : List Char → Bool
  | [] => false
  | c :: rest => isSymbolStart c && rest.all isSymbolChar

end HackStack
