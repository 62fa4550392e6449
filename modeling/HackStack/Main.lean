import HackStack.Tool.Run

set_option autoImplicit false

/-! # The command line

The files that a request names are read, the request is carried out on the tree of these files, and
what changed is written back. The names of the entries of a directory are read from standard input,
one a line. -/

namespace HackStack.Main

open Files Tool

def input? : Request → Option Path
  | .translate args _ | .run args _ => some args.input
  | .assemble input _ => some input
  | .initConfig _ | .version | .help => none

def otherPaths (t : Tree) : Request → List Path
  | .translate args output => output.getD (defaultOutput t args.input) :: args.config.toList
  | .assemble input output => [output.getD (input.withExtension "hack")]
  | .run args _ => args.config.toList
  | .initConfig path => [path]
  | .version | .help => []

def placeText (place : Place) : String := "/" ++ "/".intercalate place

/-- What stands at a place. Reading a directory fails with the system's error 21. -/
def loadNode (place : Place) : IO (Option Node) := do
  try
    return some (.file (← IO.FS.readBinFile (placeText place)))
  catch
    | .inappropriateType _ 21 _ => return some .directory
    | _ => return none

def addPath (t : Tree) (p : Path) : IO Tree := do
  let place := t.place p
  let mut tree := t
  for n in List.range (place.length + 1) do
    if (tree.node? (place.take n)).isNone then
      if let some node ← loadNode (place.take n) then
        tree := tree.insert (place.take n) node
  return tree

def inputLines : IO (List String) := do
  let text ← (← IO.getStdin).readToEnd
  return (Text.lines text.toList).map String.ofList

def addInput (t : Tree) (p : Path) : IO Tree := do
  let tree ← addPath t p
  if tree.isDirectory p then
    (← inputLines).foldlM (fun tree name => addPath tree (p.join name)) tree
  else return tree

def loadTree (t : Tree) (request : Request) : IO Tree := do
  let tree ← match input? request with
    | some p => addInput t p
    | none => pure t
  (otherPaths tree request).foldlM addPath tree

def currentPlace : IO Place := do
  let here := toString (← IO.currentDir)
  return ((Text.splitAt '/' here.toList).filter fun name => !name.isEmpty).map String.ofList

def finish (before : Tree) (outcome : Outcome) : IO UInt32 := do
  for line in outcome.stderr do
    IO.eprintln line
  for (place, content) in Tree.changes before outcome.tree do
    IO.FS.writeBinFile (placeText place) content
  IO.print outcome.stdout
  return outcome.exitCode.toUInt32

end HackStack.Main

def main (args : List String) : IO UInt32 := do
  let empty := HackStack.Files.Tree.empty (← HackStack.Main.currentPlace)
  match HackStack.Tool.request? args with
  | none =>
    IO.eprintln "error: invalid arguments"
    return 2
  | some request =>
    let tree ← HackStack.Main.loadTree empty request
    HackStack.Main.finish tree (HackStack.Tool.perform tree request)
