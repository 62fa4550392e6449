import HackStack.Text.Lines

set_option autoImplicit false

/-! # Paths

A path is a text whose components are separated by slashes. Repeated slashes, slashes at the end and
components `.` after the first are not components. The last component, if it is a name, has a stem
and perhaps an extension after its last dot. -/

namespace HackStack.Files

structure Path where
  text : String
  deriving DecidableEq, Repr

inductive Component where
  | root
  | here
  | up
  | name (s : String)
  deriving DecidableEq, Repr

namespace Component

def rank : Component → Nat
  | .root => 0
  | .here => 1
  | .up => 2
  | .name _ => 3

def label : Component → String
  | .name s => s
  | _ => ""

def order (a b : Component) : Ordering := (compare a.rank b.rank).then (compare a.label b.label)

end Component

namespace Path

def isAbsolute (p : Path) : Bool := p.text.toList.head? = some '/'

def component (piece : List Char) (index : Nat) : Option Component :=
  if piece = [] then none
  else if piece = ['.'] then if index = 0 then some .here else none
  else if piece = ['.', '.'] then some .up
  else some (.name (String.ofList piece))

def components (p : Path) : List Component :=
  (if p.isAbsolute then [.root] else []) ++
    ((Text.splitAt '/' p.text.toList).zipIdx.filterMap fun piece => component piece.1 piece.2)

def orderComponents : List Component → List Component → Ordering
  | [], [] => .eq
  | [], _ :: _ => .lt
  | _ :: _, [] => .gt
  | a :: as, b :: bs => (a.order b).then (orderComponents as bs)

def le (p q : Path) : Bool := (orderComponents p.components q.components).isLE

/-- A reversed text without the slashes and components `.` at its end. -/
def trimTail : List Char → List Char
  | '/' :: rest => trimTail rest
  | '.' :: '/' :: rest => trimTail rest
  | text => text

def splitName? (p : Path) : Option (List Char × List Char) :=
  let tail := trimTail p.text.toList.reverse
  let name := (tail.takeWhile (· != '/')).reverse
  let before := (tail.dropWhile (· != '/')).reverse
  if name = [] || name = ['.'] || name = ['.', '.'] then none else some (before, name)

def fileName? (p : Path) : Option String := p.splitName?.map fun split => String.ofList split.2

/-- The stem of a name and its extension. A dot at the start begins no extension. -/
def splitExtension (name : List Char) : List Char × Option (List Char) :=
  let reversed := name.reverse
  match reversed.dropWhile (· != '.') with
  | [] | [_] => (name, none)
  | _ :: stem => (stem.reverse, some (reversed.takeWhile (· != '.')).reverse)

def stem? (p : Path) : Option String :=
  p.splitName?.map fun split => String.ofList (splitExtension split.2).1

def extension? (p : Path) : Option String :=
  p.splitName?.bind fun split => (splitExtension split.2).2.map String.ofList

def dropExtension (p : Path) : Path :=
  match p.extension? with
  | none => p
  | some extension => ⟨String.ofList (p.text.toList.take (p.text.length - extension.length))⟩

/-- The path with another extension. The old one is taken off first, and if no name is left at the
end then, as of `..` and an extension, nothing is put in its place. -/
def withExtension (p : Path) (extension : String) : Path :=
  let bare := p.dropExtension
  match bare.splitName? with
  | none => bare
  | some (before, name) =>
    ⟨String.ofList (before ++ (splitExtension name).1) ++ "." ++ extension⟩

def join (p : Path) (name : String) : Path :=
  match p.text.toList.getLast? with
  | none => ⟨name⟩
  | some '/' => ⟨p.text ++ name⟩
  | some _ => ⟨p.text ++ "/" ++ name⟩

end Path

end HackStack.Files
