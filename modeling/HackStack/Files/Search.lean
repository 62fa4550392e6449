import HackStack.Files.Pattern
import HackStack.Files.Tree

set_option autoImplicit false

/-! # Searching a tree

A pattern is followed through the tree component by component. A component without wildcards leads to
one path, if that exists; any other leads to every entry of the directory whose name has its form. Each
entry is followed to the end before the next one: first `..`, then `.`, then the others by name. -/

namespace HackStack.Files

inductive Step where
  | literal (name : List Char)
  | entries (tokens : List Token)
  | below (tokens : List Token)
  deriving DecidableEq, Repr

/-- The steps of the components of a pattern. Components that stand for any number of directories
belong to the component after them. -/
def steps (deep : Bool) : List (List Token) → List Step
  | [] => []
  | tokens :: rest =>
    if tokens.contains .anyDirectories then steps true rest
    else
      (if deep then .below tokens
       else match literal? tokens with
        | some name => .literal name
        | none => .entries tokens) :: steps false rest

def isHere (p : Path) : Bool := p.components = [.here]

/-- The path of an entry of a directory. Entries of the current directory go by their names. -/
def entryPath (p : Path) (name : String) : Path := if isHere p then ⟨name⟩ else p.join name

def dotEntries (tokens : List Token) : List String :=
  if tokens.head? = some (.char '.') then
    ["..", "."].filter fun name => matchesName tokens name.toList
  else []

def paths (t : Tree) : List Step → Path → List Path
  | [], p => [p]
  | .literal name :: rest, p =>
    let next := entryPath p (String.ofList name)
    let special := name = ['.'] || name = ['.', '.']
    if if special then t.isDirectory p else t.contains next then paths t rest next else []
  | .entries tokens :: rest, p =>
    match t.directory? p with
    | none => []
    | some place =>
      let names := (t.children place).filter fun name => matchesName tokens name.toList
      (dotEntries tokens).flatMap (fun name => paths t rest (p.join name)) ++
        names.flatMap fun name => paths t rest (entryPath p name)
  | .below tokens :: rest, p =>
    match t.directory? p with
    | none => []
    | some place =>
      (t.descendants place).flatMap fun names =>
        if matchesName tokens (names.getLast?.getD "").toList then
          paths t rest (names.foldl entryPath p)
        else []

/-- The paths that have the form of a pattern, in the order in which they are found. The search starts at the root
for a pattern that starts with a slash, and else in the current directory. Repeated slashes have empty
components between them, which lead from a directory to itself. -/
def search (t : Tree) (pattern : Path) : Except PatternError (List Path) := do
  let text := pattern.text.toList
  let _ ← parsePattern text
  let (root, rest) := if pattern.isAbsolute then ("/", text.drop 1) else (".", text)
  let components ← (Text.splitAt '/' rest).mapM parsePattern
  return paths t (steps false components) ⟨root⟩

end HackStack.Files
