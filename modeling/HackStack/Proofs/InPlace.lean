import HackStack.Proofs.Encoding
import HackStack.Proofs.HaltLoops

set_option autoImplicit false

/-! # The machine in place

A machine is kept as two arrays and a few registers, and each operation changes them one after the
other. An operation that fails half way leaves what it has changed so far. Done on the data of a
machine, each operation does what the function from machine to machine does. -/

namespace HackStack

def Fault.pc? : Fault → Option Word
  | .outOfBounds _ pc => some pc
  | .illegal _ pc => some pc
  | _ => none

namespace Machine

theorem execute_frame (m : Machine) (w : Word) :
    (m.execute w).rom = m.rom ∧ (m.execute w).steps = m.steps + 1 ∧
      ((m.execute w).status = m.status ∨ (m.execute w).status = .halted) := by
  unfold execute
  split
  · exact ⟨rfl, rfl, .inl rfl⟩
  · refine ⟨rfl, rfl, ?_⟩
    simp only [compute]
    split
    · exact .inr rfl
    · exact .inl rfl

/-- A step of a machine at work ends the program or counts an instruction. -/
theorem advance_cases {m : Machine} (hrun : m.status = .running) :
    m.advance = { m with status := .halted } ∨
      m.advance.rom = m.rom ∧ m.advance.steps = m.steps + 1 ∧ m.advance.status ≠ .setup := by
  simp only [advance, hrun]
  cases m.fetch with
  | none => exact .inl rfl
  | some w =>
    obtain ⟨hrom, hsteps, hstatus⟩ := m.execute_frame w
    refine .inr ⟨hrom, hsteps, ?_⟩
    obtain h | h := hstatus <;> simp [h, hrun]

theorem runFrom_stopped {start budget fuel : Nat} {m : Machine} (h : m.status ≠ .running) :
    runFrom start budget fuel m = (m, .ok (m.steps - start)) := by
  cases fuel with
  | zero => rw [runFrom, if_neg h]
  | succ fuel => rw [runFrom, if_neg h]

theorem pc_of_refusal {m : Machine} {w : Word} {fault : Fault} (h : m.refusal? w = some fault) :
    fault.pc? = some m.pc := by
  unfold refusal? at h
  split at h
  · cases h
  · split at h
    · cases h
      rfl
    · split at h
      · cases h
        rfl
      · cases h

/-- A fault that is laid to an instruction is laid to the one under the program counter. -/
theorem pc_of_fault {m : Machine} {fault : Fault} {pc : Word} (h : m.fault? = some fault)
    (hpc : fault.pc? = some pc) : m.pc = pc := by
  unfold fault? at h
  cases hstatus : m.status with
  | setup =>
    rw [hstatus] at h
    cases h
    cases hpc
  | halted =>
    rw [hstatus] at h
    cases h
  | running =>
    rw [hstatus] at h
    obtain ⟨w, -, hw⟩ := Option.bind_eq_some_iff.1 h
    exact Option.some.inj ((pc_of_refusal hw).symm.trans hpc)

/-- A machine as plain data, with arrays of any length. -/
structure Raw where
  rom : Array Word
  ram : Array Word
  a : Word
  d : Word
  pc : Word
  status : Status
  steps : Nat

def raw (m : Machine) : Raw :=
  ⟨m.rom, m.ram.cells.toArray, m.a, m.d, m.pc, m.status, m.steps⟩

namespace Raw

/-- Why an operation ends early: a fault, which it reports, or an index outside an array or a loop
without end, which it does not survive. -/
inductive Stop where
  | fault (f : Fault)
  | outside
  | endless

/-- An operation in place. What it has changed before it ends early stays changed. -/
abbrev Act := EStateM Stop Raw

def readCell (address pc : Word) : Act Word := do
  match (← get).ram[address.toNat]? with
  | some w => return w
  | none => throw (.fault (.outOfBounds address pc))

def writeCell (address value pc : Word) : Act Unit := do
  if ramSize ≤ address.toNat then
    throw (.fault (.outOfBounds address pc))
  else if address.toNat < (← get).ram.size then
    modify fun c => { c with ram := c.ram.setIfInBounds address.toNat value }
  else throw .outside

def operand (w address pc : Word) : Act Word :=
  if w &&& 0x1000 != 0 then readCell address pc else return address

/-- The result goes to the memory first, at the address held before the instruction. -/
def store (w out address pc : Word) : Act Unit := do
  if w &&& 0x0008 != 0 then writeCell address out pc
  if w &&& 0x0020 != 0 then modify fun c => { c with a := out }
  if w &&& 0x0010 != 0 then modify fun c => { c with d := out }

def goOn (w out address pc : Word) : Act Unit := do
  if (Jump.ofBits w).holds out then
    if Jump.ofBits w == .always && isHaltLoop (← get).rom pc address then
      modify fun c => { c with status := .halted }
    modify fun c => { c with pc := address }
  else
    modify fun c => { c with pc := pc + 1 }

def execute (w : Word) : Act Unit := do
  let pc := (← get).pc
  if w &&& 0x8000 == 0 then
    modify fun c => { c with a := w }
    modify fun c => { c with pc := pc + 1 }
  else if w &&& 0x6000 != 0x6000 then
    throw (.fault (.illegal w pc))
  else
    let address := (← get).a
    let y ← operand w address pc
    let out := (Control.ofWord w).output (← get).d y
    store w out address pc
    goOn w out address pc

def step : Act Unit := do
  match (← get).status with
  | .setup => throw (.fault .notLoaded)
  | .halted => return ()
  | .running =>
    match (← get).rom[(← get).pc.toNat]? with
    | none => modify fun c => { c with status := .halted }
    | some w =>
      execute w
      modify fun c => { c with steps := c.steps + 1 }

def reset : Act Unit :=
  modify fun c => { c with a := 0, d := 0, pc := 0, steps := 0, status := .running }

def load (words : Array Word) : Act Unit := do
  if Assembly.romSize < words.size then
    throw (.fault (.programTooLarge words.size))
  else
    modify fun c => { c with rom := words }
    reset

def poke (address value : Word) : Act Unit :=
  modify fun c => { c with ram := c.ram.setIfInBounds address.toNat value }

def stack (base : Word) : Act (List Word) := do
  let c ← get
  let top := min (c.ram[stackPointer.toNat]?.getD 0).toNat ramSize
  let bottom := min base.toNat top
  if bottom ≤ top ∧ top ≤ c.ram.size then
    return (c.ram.extract bottom top).toList
  else throw .outside

def stepTimes : Nat → Act Unit
  | 0 => return ()
  | n + 1 => do
    step
    stepTimes n

def loop (start budget : Nat) : Nat → Act Nat
  | 0 => throw .endless
  | rounds + 1 => do
    if (← get).status = .running then
      if budget ≤ (← get).steps - start then
        throw (.fault (.stepLimit budget))
      else
        step
        loop start budget rounds
    else return (← get).steps - start

def run (budget : Nat) : Act Nat := do
  loop (← get).steps budget (budget + 1)

def outcome {α : Type} : Machine × Except Fault α → EStateM.Result Stop Raw α
  | (u, .ok x) => .ok x u.raw
  | (u, .error fault) => .error (.fault fault) u.raw

theorem readCell_raw (m : Machine) (address pc : Word) :
    (readCell address pc).run m.raw =
      if ramSize ≤ address.toNat then .error (.fault (.outOfBounds address pc)) m.raw
      else .ok (m.ram.read address) m.raw := by
  by_cases h : address.toNat < ramSize
  · simp [readCell, raw, Memory.read, h]
  · simp [readCell, raw, h, Nat.le_of_not_lt h]
    rfl

theorem raw_write (m : Machine) (address value : Word) :
    { m with ram := m.ram.write address value }.raw =
      { m.raw with ram := m.raw.ram.setIfInBounds address.toNat value } := by
  by_cases h : address.toNat < ramSize <;> simp [raw, Memory.write, h, Array.setIfInBounds]

theorem writeCell_raw (m : Machine) (address value pc : Word) :
    (writeCell address value pc).run m.raw =
      if ramSize ≤ address.toNat then .error (.fault (.outOfBounds address pc)) m.raw
      else .ok () { m with ram := m.ram.write address value }.raw := by
  unfold writeCell
  split
  next => rfl
  next h =>
    have hsize : address.toNat < m.raw.ram.size := by simpa [raw] using Nat.lt_of_not_le h
    simp [hsize, raw_write]

theorem operand_raw (m : Machine) (w address pc : Word) :
    (operand w address pc).run m.raw =
      if w &&& 0x1000 != 0 && ramSize ≤ address.toNat then
        .error (.fault (.outOfBounds address pc)) m.raw
      else .ok (if w &&& 0x1000 != 0 then m.ram.read address else address) m.raw := by
  unfold operand
  cases w &&& 0x1000 != 0 with
  | false => rfl
  | true => simp [readCell_raw]

theorem store_raw (m : Machine) (w out address pc : Word) :
    (store w out address pc).run m.raw =
      if w &&& 0x0008 != 0 && ramSize ≤ address.toNat then
        .error (.fault (.outOfBounds address pc)) m.raw
      else .ok () { m with
        ram := if w &&& 0x0008 != 0 then m.ram.write address out else m.ram
        a := if w &&& 0x0020 != 0 then out else m.a
        d := if w &&& 0x0010 != 0 then out else m.d }.raw := by
  unfold store
  cases w &&& 0x0008 != 0 with
  | false => cases w &&& 0x0020 != 0 <;> cases w &&& 0x0010 != 0 <;> rfl
  | true =>
    simp only [↓reduceIte, EStateM.run_bind, writeCell_raw, Bool.true_and]
    by_cases h : ramSize ≤ address.toNat
    · simp only [h, ↓reduceIte, decide_true]
    · simp only [h, ↓reduceIte, decide_false]
      cases w &&& 0x0020 != 0 <;> cases w &&& 0x0010 != 0 <;> rfl

theorem goOn_raw (m : Machine) (w out address pc : Word) :
    (goOn w out address pc).run m.raw =
      .ok () { m with
        pc := if (Jump.ofBits w).holds out then address else pc + 1
        status := if (Jump.ofBits w == Jump.always) && isHaltLoop m.rom pc address then .halted
          else m.status }.raw := by
  have hrom : m.raw.rom = m.rom := rfl
  unfold goOn
  cases hjump : (Jump.ofBits w).holds out with
  | true =>
    simp only [↓reduceIte, EStateM.run_bind, EStateM.run_get, hrom]
    cases Jump.ofBits w == Jump.always && isHaltLoop m.rom pc address <;> rfl
  | false =>
    have hne : (Jump.ofBits w == Jump.always) = false := by
      rw [beq_eq_false_iff_ne]
      intro h
      rw [h, Jump.holds_always] at hjump
      cases hjump
    rw [hne]
    rfl

/-- A word that is refused has changed nothing. One that is executed has still to be counted. -/
theorem execute_raw (m : Machine) (w : Word) :
    (execute w).run m.raw =
      match m.refusal? w with
      | some fault => .error (.fault fault) m.raw
      | none => .ok () { m.execute w with steps := m.steps }.raw := by
  have hpc : m.raw.pc = m.pc := rfl
  have ha : m.raw.a = m.a := rfl
  have hd : m.raw.d = m.d := rfl
  unfold execute refusal? Machine.execute
  cases w &&& 0x8000 == 0 with
  | true => rfl
  | false =>
    cases w &&& 0x6000 != 0x6000 with
    | true => rfl
    | false =>
      simp only [Bool.false_eq_true, ↓reduceIte, EStateM.run_bind, EStateM.run_get, operand_raw,
        hpc, ha, Bool.and_or_distrib_right]
      -- The two places where an access can fail, in the order in which they come.
      cases w &&& 0x1000 != 0 && decide (ramSize ≤ m.a.toNat) with
      | true => rfl
      | false =>
        simp only [Bool.false_eq_true, ↓reduceIte, Bool.false_or, store_raw, hd]
        cases w &&& 0x0008 != 0 && decide (ramSize ≤ m.a.toNat) with
        | true => rfl
        | false =>
          simp only [Bool.false_eq_true, ↓reduceIte, goOn_raw, compute, Dest.ofBits_shifted]

theorem raw_tick (m : Machine) (w : Word) :
    { { m.execute w with steps := m.steps }.raw with steps := m.steps + 1 } =
      (m.execute w).raw := by
  unfold Machine.execute
  split <;> rfl

def attempt (m : Machine) : Except Fault Machine → Machine × Except Fault Unit
  | .ok u => (u, .ok ())
  | .error fault => (m, .error fault)

theorem step_raw (m : Machine) : step.run m.raw = outcome (attempt m m.step) := by
  have hstatus : m.raw.status = m.status := rfl
  have hfetch : m.raw.rom[m.raw.pc.toNat]? = m.fetch := rfl
  unfold step Machine.step fault? advance
  simp only [EStateM.run_bind, EStateM.run_get, hstatus]
  cases m.status with
  | setup => rfl
  | halted => rfl
  | running =>
    simp only [EStateM.run_bind, EStateM.run_get, hfetch]
    cases m.fetch with
    | none => rfl
    | some w =>
      simp only [EStateM.run_bind, execute_raw, Option.bind_some]
      cases m.refusal? w with
      | some fault => rfl
      | none => exact congrArg (EStateM.Result.ok ()) (raw_tick m w)

theorem load_raw (m : Machine) (words : Array Word) :
    (load words).run m.raw = outcome (attempt m (m.load words)) := by
  unfold load Machine.load
  split <;> rfl

theorem poke_raw (m : Machine) (address value : Word) :
    (poke address value).run m.raw = .ok () (m.poke address value).raw := by
  rw [Machine.poke, raw_write]
  rfl

theorem peek_raw (m : Machine) (address : Word) :
    m.raw.ram[address.toNat]?.getD 0 = m.peek address := by
  by_cases h : address.toNat < ramSize <;> simp [raw, peek, Memory.read, h]

theorem peek_cell (m : Machine) {i : Nat} (hi : i < ramSize) :
    m.peek i.toUInt16 = m.ram.cells[i] := by
  have hi' : i.toUInt16.toNat = i := by
    simpa using Nat.mod_eq_of_lt (Nat.lt_trans hi (by decide : ramSize < 65536))
  simp [peek, Memory.read, hi', hi]

theorem stack_raw (m : Machine) (base : Word) :
    (stack base).run m.raw = .ok (m.stack base) m.raw := by
  have hsize : m.raw.ram.size = ramSize := m.ram.cells.size_toArray
  unfold stack Machine.stack
  simp only [EStateM.run_bind, EStateM.run_get, peek_raw, hsize]
  rw [if_pos ⟨Nat.min_le_right _ _, Nat.min_le_right _ _⟩]
  refine congrArg (EStateM.Result.ok · m.raw) (List.ext_getElem ?_ fun i hi hi' => ?_)
  · simp [hsize]
  · have hlt : min base.toNat (min (m.peek stackPointer).toNat ramSize) + i < ramSize := by
      simp at hi'
      omega
    simp only [Array.getElem_toList, Array.getElem_extract, List.getElem_map, List.getElem_range',
      Nat.one_mul, peek_cell m hlt]
    rfl

/-- The rounds that are left are the steps that are left, as long as the machine runs. -/
theorem loop_raw {start budget fuel : Nat} {m : Machine}
    (h : m.status = .running → start ≤ m.steps ∧ m.steps - start + fuel = budget) :
    (loop start budget (fuel + 1)).run m.raw = outcome (runFrom start budget fuel m) := by
  have hstatus : m.raw.status = m.status := rfl
  have hsteps : m.raw.steps = m.steps := rfl
  induction fuel generalizing m with
  | zero =>
    rw [loop, runFrom]
    simp only [EStateM.run_bind, EStateM.run_get, hstatus]
    split
    next hrun =>
      have hspent : budget ≤ m.steps - start := (h hrun).2.ge
      simp only [EStateM.run_bind, EStateM.run_get, hsteps, hspent, ↓reduceIte]
      rfl
    next => rfl
  | succ fuel ih =>
    rw [loop, runFrom]
    simp only [EStateM.run_bind, EStateM.run_get, hstatus]
    split
    next hrun =>
      obtain ⟨hstart, hbudget⟩ := h hrun
      have hleft : ¬ budget ≤ m.steps - start := by omega
      simp only [EStateM.run_bind, EStateM.run_get, hsteps, hleft, ↓reduceIte, step_raw,
        Machine.step]
      cases m.fault? with
      | some fault => rfl
      | none =>
        refine ih (fun hrun' => ?_) rfl rfl
        -- The step that ends the program is not counted, but the loop ends with it.
        obtain hhalt | ⟨-, hcount, -⟩ := advance_cases hrun
        · rw [hhalt] at hrun'
          cases hrun'
        · omega
    next => rfl

theorem run_raw (m : Machine) (budget : Nat) :
    (run budget).run m.raw = outcome (m.run budget) :=
  loop_raw fun _ => ⟨Nat.le_refl m.steps, by simp [raw]⟩

/-- A run that fails at an instruction has taken only steps that succeeded, and has stopped before
the step that fails. -/
theorem runFrom_fault {start budget fuel : Nat} {m u : Machine} {fault : Fault} {pc : Word}
    (h : runFrom start budget fuel m = (u, .error fault)) (hpc : fault.pc? = some pc) :
    ∃ n, (stepTimes n).run m.raw = .ok () u.raw ∧ u.fault? = some fault ∧
      u.steps = m.steps + n := by
  induction fuel generalizing m with
  | zero =>
    rw [runFrom] at h
    split at h
    · cases h
      cases hpc
    · cases h
  | succ fuel ih =>
    rw [runFrom] at h
    split at h
    next hrun =>
      cases hf : m.fault? with
      | some f =>
        rw [hf] at h
        cases h
        exact ⟨0, rfl, hf, rfl⟩
      | none =>
        rw [hf] at h
        have hstep : step.run m.raw = .ok () m.advance.raw := by
          rw [step_raw, Machine.step, hf]
          rfl
        have hcount : m.advance.steps = m.steps + 1 := by
          obtain hhalt | ⟨-, hcount, -⟩ := advance_cases hrun
          · rw [hhalt, runFrom_stopped (by simp)] at h
            cases h
          · exact hcount
        obtain ⟨n, htimes, hfault, hsteps⟩ := ih h
        refine ⟨n + 1, ?_, hfault, ?_⟩
        · rw [stepTimes, EStateM.run_bind, hstep]
          exact htimes
        · omega
    next => cases h

end Raw

end Machine

end HackStack
