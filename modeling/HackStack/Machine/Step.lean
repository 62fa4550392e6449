import HackStack.Machine.Basic

set_option autoImplicit false

namespace HackStack.Machine

def fetch (m : Machine) : Option Word := m.rom[m.pc.toNat]?

def refusal? (m : Machine) (w : Word) : Option Fault :=
  if w &&& 0x8000 == 0 then none
  else if w &&& 0x6000 != 0x6000 then some (.illegal w m.pc)
  else if (w &&& 0x1000 != 0 || w &&& 0x0008 != 0) && ramSize ≤ m.a.toNat then
    some (.outOfBounds m.a m.pc)
  else none

/-- Whether a jump from `pc` to `target` goes back to the instruction before it that only loads the
target again, so that the two instructions repeat for ever. -/
def isHaltLoop (rom : Array Word) (pc target : Word) : Bool :=
  0 < pc && target == pc - 1 && rom[target.toNat]? == some target

def loadAddress (m : Machine) (w : Word) : Machine :=
  { m with a := w, pc := m.pc + 1, steps := m.steps + 1 }

def compute (m : Machine) (w : Word) : Machine :=
  let target := m.a
  let y := if w &&& 0x1000 != 0 then m.ram.read target else target
  let out := (Control.ofWord w).output m.d y
  let dest := Dest.ofBits (w >>> 3)
  let jump := Jump.ofBits w
  let halts := jump == .always && isHaltLoop m.rom m.pc target
  { m with
    ram := if dest.m then m.ram.write target out else m.ram
    a := if dest.a then out else target
    d := if dest.d then out else m.d
    pc := if jump.holds out then target else m.pc + 1
    status := if halts then .halted else m.status
    steps := m.steps + 1 }

def execute (m : Machine) (w : Word) : Machine :=
  if w &&& 0x8000 == 0 then m.loadAddress w else m.compute w

def fault? (m : Machine) : Option Fault :=
  match m.status with
  | .setup => some .notLoaded
  | .halted => none
  | .running => m.fetch.bind m.refusal?

/-- The machine after a step that it can take. It halts when the program counter leaves the
program. -/
def advance (m : Machine) : Machine :=
  match m.status with
  | .running =>
    match m.fetch with
    | none => { m with status := .halted }
    | some w => m.execute w
  | _ => m

def step (m : Machine) : Except Fault Machine :=
  match m.fault? with
  | some fault => .error fault
  | none => .ok m.advance

/-- Up to `n` steps: the machine after the last one that could be taken, and the fault that stopped
it. -/
def stepMany : Nat → Machine → Machine × Option Fault
  | 0, m => (m, none)
  | n + 1, m =>
    if m.status = .halted then (m, none)
    else
      match m.fault? with
      | some fault => (m, some fault)
      | none => stepMany n m.advance

/-- Steps until the machine no longer runs, a fault stops it, or `fuel` steps are taken. -/
def runFrom (start budget : Nat) : Nat → Machine → Machine × Except Fault Nat
  | 0, m =>
    if m.status = .running then (m, .error (.stepLimit budget)) else (m, .ok (m.steps - start))
  | fuel + 1, m =>
    if m.status = .running then
      match m.fault? with
      | some fault => (m, .error fault)
      | none => runFrom start budget fuel m.advance
    else (m, .ok (m.steps - start))

def run (m : Machine) (budget : Nat) : Machine × Except Fault Nat :=
  runFrom m.steps budget budget m

end HackStack.Machine
