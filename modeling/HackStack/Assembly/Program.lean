import HackStack.Assembly.Reader
import Std.Data.HashMap

set_option autoImplicit false

namespace HackStack.Assembly

def predefined : List (String × Word) :=
  [("SP", 0), ("LCL", 1), ("ARG", 2), ("THIS", 3), ("THAT", 4), ("R0", 0), ("R1", 1), ("R2", 2),
   ("R3", 3), ("R4", 4), ("R5", 5), ("R6", 6), ("R7", 7), ("R8", 8), ("R9", 9), ("R10", 10),
   ("R11", 11), ("R12", 12), ("R13", 13), ("R14", 14), ("R15", 15), ("SCREEN", 16384),
   ("KBD", 24576)]

def romSize : Nat := 32768

def firstVariable : Word := 16

/-- The symbols that a program binds itself. -/
abbrev SymbolTable := Std.HashMap String Word

def SymbolTable.address? (table : SymbolTable) (name : String) : Option Word :=
  match predefined.lookup name with
  | some address => some address
  | none => table[name]?

theorem SymbolTable.address?_of_predefined {name : String} {a : Word}
    (h : predefined.lookup name = some a) (table : SymbolTable) : table.address? name = some a := by
  simp only [address?, h]

theorem SymbolTable.address?_of_not_predefined {name : String} (h : predefined.lookup name = none)
    (table : SymbolTable) : table.address? name = table[name]? := by
  simp only [address?, h]

structure Program where
  words : Array Word
  symbols : SymbolTable

/-- The state of the first pass: labels bound so far, instructions seen, labels declared twice. -/
structure Labels where
  table : SymbolTable := ∅
  address : Nat := 0
  errors : Array Error := #[]

def Labels.next (l : Labels) (s : Numbered) : Labels :=
  match s.statement with
  | .label name =>
    match l.table.address? name with
    | some _ => { l with errors := l.errors.push (.duplicateLabel s.line name) }
    | none => { l with table := l.table.insert name l.address.toUInt16 }
  | _ => { l with address := l.address + 1 }

/-- The state of the second pass: symbols bound so far, the next free variable, the words. -/
structure Encoding where
  table : SymbolTable
  free : Word := firstVariable
  words : Array Word := #[]

def Encoding.push (e : Encoding) (i : Instruction) : Encoding :=
  { e with words := e.words.push i.encode }

def Encoding.next (e : Encoding) (s : Statement) : Encoding :=
  match s with
  | .label _ => e
  | .value v => e.push (.address v)
  | .compute c => e.push (.compute c)
  | .symbol name =>
    match e.table.address? name with
    | some address => e.push (.address address)
    | none =>
      { e with
        table := e.table.insert name e.free
        free := e.free + 1
        words := e.words.push (Instruction.address e.free).encode }

/-- The labels of a program, or an error for each that is declared twice and one for a program that
is too large. -/
def bindLabels (statements : List Numbered) : Except (List Error) SymbolTable :=
  let l := statements.foldl Labels.next {}
  let errors := l.errors.toList ++ if romSize < l.address then [.tooLarge l.address] else []
  if errors.isEmpty then .ok l.table else .error errors

def encodeWith (labels : SymbolTable) (statements : List Numbered) : Program :=
  let start : Encoding := { table := labels }
  let e := statements.foldl (fun e s => e.next s.statement) start
  ⟨e.words, e.table⟩

def assemble (source : String) : Except (List Error) Program := do
  let statements ← read source
  let labels ← bindLabels statements
  return encodeWith labels statements

def Program.address? (p : Program) (name : String) : Option Word := p.symbols[name]?

def Program.binary (p : Program) : String :=
  p.words.foldl (fun text w => text ++ Word.binary w ++ "\n") ""

end HackStack.Assembly
