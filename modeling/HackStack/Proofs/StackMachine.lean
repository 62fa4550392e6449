import HackStack.Assembly.Program
import HackStack.Machine.Basic
import HackStack.Proofs.Sites

set_option autoImplicit false

/-! # The stack machine

The commands of a program run directly on the memory, without any code. A state is the index of the
next command and the memory. A command that uses a cell that it has no access to, jumps to a name that
no command declares or returns to an address that is behind no call has no next state.

The memory is the one of the computer: cell 0 points behind the top of the stack, cells 1 to 4 hold the
base addresses and statics live in the cells that symbols are bound to. A pop and a return set words
aside for a moment. Either they do so in cells 13 and 14, as the computer does, or they keep these words
to themselves and leave the two cells alone. -/

namespace HackStack

open Assembly Lowering

def Base.cell : Base → Word
  | .lcl => 1
  | .arg => 2
  | .this => 3
  | .that => 4

namespace Memory

def load? (mem : Memory) (address : Word) : Option Word :=
  if address.toNat < ramSize then some (mem.read address) else none

def store? (mem : Memory) (address value : Word) : Option Memory :=
  if address.toNat < ramSize then some (mem.write address value) else none

end Memory

namespace Operation

def truth (b : Bool) : Word := if b then 0xFFFF else 0

/-- The value of an operation on the two top words of the stack; one operand is the right one. -/
def value (op : Operation) (left right : Word) : Word :=
  match op with
  | .add => left + right
  | .sub => left - right
  | .and => left &&& right
  | .or => left ||| right
  | .neg => -right
  | .not => ~~~right
  | .eq => truth (left - right = 0)
  | .gt => truth (0 < Word.signed (left - right))
  | .lt => truth (Word.signed (left - right) < 0)

end Operation

structure Access where
  load? : Memory → Word → Option Word
  store? : Memory → Word → Word → Option Memory
  /-- The memory after a word is set aside under the number of a cell. -/
  hold : Memory → Word → Word → Memory
  /-- The word that was set aside under the number of a cell. -/
  held : Memory → Word → Word → Word

namespace Access

def shared : Access where
  load? := Memory.load?
  store? := Memory.store?
  hold := Memory.write
  held mem cell _ := mem.read cell

theorem shared_load? (mem : Memory) (a : Word) : shared.load? mem a = mem.load? a := rfl

theorem shared_store? (mem : Memory) (a value : Word) :
    shared.store? mem a value = mem.store? a value := rfl

theorem shared_held (mem : Memory) (cell word : Word) : shared.held mem cell word = mem.read cell :=
  rfl

def isScratch (address : Word) : Bool := address = 13 || address = 14

/-- Words are set aside outside the memory, and the cells for them are not used. -/
def apart : Access where
  load? mem address := if isScratch address then none else mem.load? address
  store? mem address value := if isScratch address then none else mem.store? address value
  hold mem _ _ := mem
  held _ _ word := word

variable (access : Access) (mem : Memory)

def push? (value : Word) : Option Memory :=
  (access.store? mem (mem.read 0) value).map fun mem => mem.write 0 (mem.read 0 + 1)

def pop? : Option (Word × Memory) :=
  let top := mem.read 0 - 1
  (access.load? (mem.write 0 top) top).map fun value => (value, mem.write 0 top)

def pushFrom? (static? : Word → Option Word) (segment : Segment) (index : Word) : Option Memory :=
  match segment.addressing with
  | .immediate => access.push? mem index
  | .static => do access.push? mem (← access.load? mem (← static? index))
  | .indirect base => do access.push? mem (← access.load? mem (mem.read base.cell + index))
  | .direct base => do access.push? mem (← access.load? mem (base + index))

/-- Pops into the cell of a segment. The address of a cell behind a base register is set aside before
the stack pointer moves. -/
def popTo? (static? : Word → Option Word) (segment : Segment) (index : Word) : Option Memory :=
  match segment.addressing with
  | .immediate => some (mem.write 0 (mem.read 0 - 1))
  | .static => do
    let cell ← static? index
    let (value, mem) ← access.pop? mem
    access.store? mem cell value
  | .indirect base => do
    let cell := mem.read base.cell + index
    let (value, mem) ← access.pop? (access.hold mem 13 cell)
    access.store? mem (access.held mem 13 cell) value
  | .direct base => do
    let (value, mem) ← access.pop? mem
    access.store? mem (base + index) value

def operate? (op : Operation) : Option Memory :=
  if op.isUnary then do
    let top := mem.read 0 - 1
    let value ← access.load? mem top
    return mem.write top (op.value 0 value)
  else do
    let (right, mem) ← access.pop? mem
    let top := mem.read 0 - 1
    let left ← access.load? mem top
    return mem.write top (op.value left right)

def zeros? : Nat → Memory → Option Memory
  | 0, mem => some mem
  | n + 1, mem => (access.push? mem 0).bind (zeros? n)

def save? (base : Base) : Option Memory := access.push? mem (mem.read base.cell)

def enter? (returnAddress args : Word) : Option Memory := do
  let mem ← access.push? mem returnAddress
  let mem ← savedRegisters.foldlM access.save? mem
  let mem := mem.write Base.arg.cell (mem.read 0 - 5 - args)
  return mem.write Base.lcl.cell (mem.read 0)

def restore? (frame : Word) (mem : Memory) (place : Base × Word) : Option Memory :=
  (access.load? mem (access.held mem 13 frame - place.2)).map fun value =>
    mem.write place.1.cell value

/-- Sets the frame's end and the return address aside, puts the top of the stack in the place of the
first argument and restores the caller's frame. Gives the return address and the memory. -/
def leave? : Option (Word × Memory) := do
  let frame := mem.read Base.lcl.cell
  let mem := access.hold mem 13 frame
  let address ← access.load? mem (frame - 5)
  let mem := access.hold mem 14 address
  let (value, mem) ← access.pop? mem
  let mem ← access.store? mem (mem.read Base.arg.cell) value
  let mem := mem.write 0 (mem.read Base.arg.cell + 1)
  let mem ← restoreOrder.foldlM (access.restore? frame) mem
  return (access.held mem 14 address, mem)

end Access

def Lowering.Site.returnLabel? (s : Site) : Option String :=
  match s.command with
  | .call name _ => some (returnLabel name s.position)
  | _ => none

namespace StackMachine

structure Code where
  options : Options
  withBootstrap : Bool
  units : List SourceUnit
  symbols : SymbolTable

structure State where
  position : Nat
  ram : Memory

namespace Code

variable (code : Code)

def sites : List Site := Lowering.sites code.withBootstrap code.units

def target? (name : String) : Option Nat :=
  code.sites.findIdx? fun s => s.command.declaredNames.contains name

/-- The index of the command behind the call that an address returns to. Behind the call of the
bootstrap stands the first command. -/
def resume? (address : Word) : Option Nat :=
  if code.withBootstrap ∧
      code.symbols.address? (returnLabel code.options.entryPoint 0) = some address then some 0
  else (code.sites.findIdx? fun s =>
    (s.returnLabel?.bind code.symbols.address?) = some address).map (· + 1)

variable (access : Access)

def perform? (position : Nat) (s : Site) (ram : Memory) : Option State :=
  let next (ram? : Option Memory) : Option State := ram?.map fun ram => ⟨position + 1, ram⟩
  let static? (index : Word) := code.symbols.address? (staticSymbol s.unit index)
  match s.command with
  | .push segment index => next (access.pushFrom? ram static? segment index)
  | .pop segment index => next (access.popTo? ram static? segment index)
  | .operate op => next (access.operate? ram op)
  | .label _ => next (some ram)
  | .goto name => (code.target? name).map fun target => ⟨target, ram⟩
  | .ifGoto name => do
    let (value, ram) ← access.pop? ram
    if value = 0 then next (some ram) else (code.target? name).map fun target => ⟨target, ram⟩
  | .function _ locals => next (access.zeros? locals.toNat ram)
  | .call name args => do
    let address ← code.symbols.address? (returnLabel name s.position)
    let ram ← access.enter? ram address args
    (code.target? name).map fun target => ⟨target, ram⟩
  | .ret => do
    let (address, ram) ← access.leave? ram
    (code.resume? address).map fun target => ⟨target, ram⟩

def step? (r : State) : Option State :=
  code.sites[r.position]?.bind fun s => code.perform? access r.position s r.ram

def start? (ram : Memory) : Option State :=
  if code.withBootstrap then do
    let address ← code.symbols.address? (returnLabel code.options.entryPoint 0)
    let ram ← access.enter? (ram.write 0 code.options.stackBase) address 0
    (code.target? code.options.entryPoint).map fun target => ⟨target, ram⟩
  else some ⟨0, ram⟩

def run? : Nat → State → Option State
  | 0, r => some r
  | n + 1, r => (code.step? access r).bind (run? n)

end Code

end StackMachine

end HackStack
