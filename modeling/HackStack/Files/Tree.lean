import HackStack.Files.Path

set_option autoImplicit false

namespace HackStack.Files

inductive FileError where
  | notFound
  | notDirectory
  | isDirectory
  | tooLong
  | notText
  deriving DecidableEq, Repr

def FileError.message : FileError → String
  | .notFound => "No such file or directory (os error 2)"
  | .notDirectory => "Not a directory (os error 20)"
  | .isDirectory => "Is a directory (os error 21)"
  | .tooLong => "File name too long (os error 36)"
  | .notText => "stream did not contain valid UTF-8"

abbrev Place := List String

/-- Whether a place comes before another or is the same. A place comes before those below it. -/
def Place.le : Place → Place → Bool
  | [], _ => true
  | _ :: _, [] => false
  | a :: as, b :: bs => if a = b then Place.le as bs else a ≤ b

inductive Node where
  | file (content : ByteArray)
  | directory

instance : DecidableEq Node
  | .file a, .file b =>
    if h : a.data = b.data then .isTrue (congrArg Node.file (ByteArray.ext h))
    else .isFalse fun e => h (congrArg ByteArray.data (Node.file.inj e))
  | .directory, .directory => .isTrue rfl
  | .file _, .directory => .isFalse fun e => Node.noConfusion e
  | .directory, .file _ => .isFalse fun e => Node.noConfusion e

structure Tree where
  current : Place
  nodes : List (Place × Node)
  deriving DecidableEq

namespace Tree

/-- The node at a place. The root is always a directory. -/
def node? (t : Tree) (place : Place) : Option Node :=
  if place = [] then some .directory else t.nodes.lookup place

def insert (t : Tree) (place : Place) (node : Node) : Tree :=
  { t with nodes := (place, node) :: t.nodes.filter fun entry => entry.1 != place }

def makeDirectories (t : Tree) (place : Place) : Tree :=
  (List.range (place.length + 1)).foldl (fun t n =>
    match t.node? (place.take n) with
    | some _ => t
    | none => t.insert (place.take n) .directory) t

def empty (current : Place) : Tree := makeDirectories ⟨current, []⟩ current

/-- The pieces of a path that are followed one by one. A slash at the end asks for a directory, as
does a piece `.`. -/
def pieces (p : Path) : List (List Char) :=
  let cut := Text.splitAt '/' p.text.toList
  let names := cut.filter fun piece => !piece.isEmpty
  if cut.getLast? = some [] then names ++ [['.']] else names

def enter (place : Place) (piece : List Char) : Place :=
  if piece = ['.'] then place
  else if piece = ['.', '.'] then place.dropLast
  else place ++ [String.ofList piece]

def requireDirectory (t : Tree) (place : Place) : Except FileError Unit :=
  match t.node? place with
  | some .directory => .ok ()
  | some (.file _) => .error .notDirectory
  | none => .error .notFound

def maxName : Nat := 255

def maxPath : Nat := 4095

def requireShort (limit : Nat) (text : String) : Except FileError Unit :=
  if text.utf8ByteSize ≤ limit then .ok () else .error .tooLong

def walk (t : Tree) (place : Place) : List (List Char) → Except FileError Place
  | [] => .ok place
  | piece :: rest => do
    t.requireDirectory place
    requireShort maxName (String.ofList piece)
    t.walk (enter place piece) rest

def start (t : Tree) (p : Path) : Place := if p.isAbsolute then [] else t.current

def find (t : Tree) (p : Path) : Except FileError (Place × Node) :=
  if p.text = "" then .error .notFound
  else do
    requireShort maxPath p.text
    let place ← t.walk (t.start p) (pieces p)
    match t.node? place with
    | some node => .ok (place, node)
    | none => .error .notFound

def contains (t : Tree) (p : Path) : Bool :=
  match t.find p with
  | .ok _ => true
  | .error _ => false

def directory? (t : Tree) (p : Path) : Option Place :=
  match t.find p with
  | .ok (place, .directory) => some place
  | _ => none

def isDirectory (t : Tree) (p : Path) : Bool := (t.directory? p).isSome

def children (t : Tree) (place : Place) : List String :=
  let names := t.nodes.filterMap fun entry =>
    match entry.1.getLast? with
    | some name => if entry.1.dropLast = place then some name else none
    | none => none
  names.mergeSort fun a b => a ≤ b

/-- The names that lead from a place to each node below it. A directory comes before what is in it, and
the entries of a directory are in order. -/
def descendants (t : Tree) (place : Place) : List (List String) :=
  let ways := t.nodes.filterMap fun entry =>
    if place.isPrefixOf entry.1 && place.length < entry.1.length then
      some (entry.1.drop place.length)
    else none
  ways.mergeSort Place.le

def read (t : Tree) (p : Path) : Except FileError String := do
  match ← t.find p with
  | (_, .directory) => .error .isDirectory
  | (_, .file content) =>
    match String.fromUTF8? content with
    | some text => .ok text
    | none => .error .notText

/-- The place where a file can be written. A new file needs a directory around it, and a path that
ends in a slash or in a component that is no name leads to no file. -/
def target (t : Tree) (p : Path) : Except FileError Place := do
  requireShort maxPath p.text
  let names := (Text.splitAt '/' p.text.toList).filter fun piece => !piece.isEmpty
  match names.getLast? with
  | none => if p.text = "" then .error .notFound else .error .isDirectory
  | some last =>
    if last = ['.'] || last = ['.', '.'] then do
      let _ ← t.find p
      .error .isDirectory
    else do
      let place ← t.walk (t.start p) names.dropLast
      t.requireDirectory place
      if p.text.toList.getLast? = some '/' then .error .isDirectory
      else do
        requireShort maxName (String.ofList last)
        match t.node? (enter place last) with
        | some .directory => .error .isDirectory
        | _ => .ok (enter place last)

def write (t : Tree) (p : Path) (text : String) : Except FileError Tree := do
  let place ← t.target p
  return t.insert place (.file text.toUTF8)

def place (t : Tree) (p : Path) : Place := (pieces p).foldl enter (t.start p)

def directoryAbove (t : Tree) (p : Path) : Place := (t.place p).dropLast

def add (t : Tree) (p : Path) (node : Node) : Tree :=
  match node with
  | .directory => t.makeDirectories (t.place p)
  | .file _ => (t.makeDirectories (t.directoryAbove p)).insert (t.place p) node

def changes (before after : Tree) : List (Place × ByteArray) :=
  after.nodes.filterMap fun entry =>
    match entry.2 with
    | .directory => none
    | .file content =>
      if before.node? entry.1 = some entry.2 then none else some (entry.1, content)

def relative? (t : Tree) (place : Place) : Option Path :=
  if t.current.isPrefixOf place then some ⟨"/".intercalate (place.drop t.current.length)⟩ else none

end Tree

end HackStack.Files
