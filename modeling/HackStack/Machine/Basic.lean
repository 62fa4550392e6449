import HackStack.Assembly.Program
import HackStack.Machine.Word

set_option autoImplicit false

namespace HackStack

def ramSize : Nat := 32768

/-- Reading outside the memory gives zero and writing outside changes nothing. The machine refuses such
accesses before it makes them. -/
structure Memory where
  cells : Vector Word ramSize

namespace Memory

def zero : Memory := ⟨Vector.replicate ramSize 0⟩

def read (mem : Memory) (address : Word) : Word :=
  if h : address.toNat < ramSize then mem.cells[address.toNat] else 0

def write (mem : Memory) (address value : Word) : Memory :=
  if h : address.toNat < ramSize then ⟨mem.cells.set address.toNat value h⟩ else mem

@[simp]
theorem read_zero (address : Word) : zero.read address = 0 := by
  simp [read, zero]

theorem read_write (mem : Memory) (a b value : Word) :
    (mem.write a value).read b =
      if a = b ∧ a.toNat < ramSize then value else mem.read b := by
  by_cases ha : a.toNat < ramSize
  · by_cases hb : b.toNat < ramSize
    · by_cases hab : a = b
      · subst hab; simp [read, write, ha]
      · have hne : a.toNat ≠ b.toNat := fun h => hab (UInt16.toNat_inj.1 h)
        simp [read, write, ha, hb, hab, hne]
    · have hab : a ≠ b := fun h => hb (h ▸ ha)
      simp [read, hb, hab]
  · simp [write, ha]

@[ext]
theorem ext_read {m n : Memory} (h : ∀ a, m.read a = n.read a) : m = n := by
  obtain ⟨mc⟩ := m
  obtain ⟨nc⟩ := n
  refine congrArg Memory.mk (Vector.ext fun i hi => ?_)
  have hlt : i < 65536 := Nat.lt_trans hi (by decide)
  have hi' : i.toUInt16.toNat = i := by simpa using Nat.mod_eq_of_lt hlt
  have := h i.toUInt16
  simpa [read, hi', hi] using this

end Memory

inductive Status where
  | setup
  | running
  | halted
  deriving DecidableEq, Repr

inductive Fault where
  | notLoaded
  | programTooLarge (words : Nat)
  | assembly (errors : List Assembly.Error)
  | outOfBounds (address pc : Word)
  | illegal (word pc : Word)
  | stepLimit (budget : Nat)
  deriving DecidableEq, Repr

def Fault.message : Fault → String
  | .notLoaded => "VM not initialized"
  | .programTooLarge words =>
    "Program too large: " ++ Decimal.text words ++ " words (ROM holds 32768)"
  | .assembly errors => "Assembly failed: " ++ "; ".intercalate (errors.map (·.message))
  | .outOfBounds address pc =>
    "Memory access out of bounds at address " ++ Decimal.text address.toNat ++
      " (pc=" ++ Decimal.text pc.toNat ++ ")"
  | .illegal word pc =>
    "Illegal instruction " ++ Word.hex word ++ " at pc=" ++ Decimal.text pc.toNat
  | .stepLimit budget =>
    "Step limit of " ++ Decimal.text budget ++ " reached before halting"

structure Machine where
  rom : Array Word := #[]
  ram : Memory := .zero
  a : Word := 0
  d : Word := 0
  pc : Word := 0
  status : Status := .setup
  steps : Nat := 0

namespace Machine

/-- The machine ready to run its program from the start. The memory is kept. -/
def reset (m : Machine) : Machine :=
  { m with a := 0, d := 0, pc := 0, status := .running, steps := 0 }

def load (m : Machine) (words : Array Word) : Except Fault Machine :=
  if Assembly.romSize < words.size then .error (.programTooLarge words.size)
  else .ok { m with rom := words }.reset

def ofAssembly (source : String) : Except Fault Machine :=
  match Assembly.assemble source with
  | .ok program => load {} program.words
  | .error errors => .error (.assembly errors)

def peek (m : Machine) (address : Word) : Word := m.ram.read address

def poke (m : Machine) (address value : Word) : Machine :=
  { m with ram := m.ram.write address value }

def stackPointer : Word := 0

def stack (m : Machine) (base : Word) : List Word :=
  let top := min (m.peek stackPointer).toNat ramSize
  let bottom := min base.toNat top
  (List.range' bottom (top - bottom)).map fun address => m.peek address.toUInt16

end Machine

end HackStack
