import HackStack.Proofs.InPlace

set_option autoImplicit false

namespace HackStack.Machine.Raw

inductive Action where
  | load (words : Array Word)
  | reset
  | poke (address value : Word)
  | step
  | run (budget : Nat)
  | setA (w : Word)
  | setD (w : Word)
  | setPc (w : Word)

namespace Action

def act : Action → Act Unit
  | .load words => Raw.load words
  | .reset => Raw.reset
  | .poke address value => Raw.poke address value
  | .step => Raw.step
  | .run budget => do let _ ← Raw.run budget
  | .setA w => modify fun c => { c with a := w }
  | .setD w => modify fun c => { c with d := w }
  | .setPc w => modify fun c => { c with pc := w }

def perform (m : Machine) : Action → Machine × Except Fault Unit
  | .load words => attempt m (m.load words)
  | .reset => (m.reset, .ok ())
  | .poke address value => (m.poke address value, .ok ())
  | .step => attempt m m.step
  | .run budget => ((m.run budget).1, (m.run budget).2.map fun _ => ())
  | .setA w => ({ m with a := w }, .ok ())
  | .setD w => ({ m with d := w }, .ok ())
  | .setPc w => ({ m with pc := w }, .ok ())

theorem act_raw (m : Machine) (action : Action) :
    action.act.run m.raw = outcome (action.perform m) := by
  cases action with
  | load words => exact load_raw m words
  | poke address value => exact poke_raw m address value
  | step => exact step_raw m
  | run budget =>
    rw [act, EStateM.run_bind, run_raw, perform]
    obtain ⟨u, result⟩ := m.run budget
    cases result <;> rfl
  | _ => rfl

def after (action : Action) (c : Raw) : Raw :=
  match action.act.run c with
  | .ok _ u => u
  | .error _ u => u

theorem after_raw (action : Action) (m : Machine) :
    action.after m.raw = (action.perform m).1.raw := by
  rw [after, act_raw]
  obtain ⟨u, result⟩ := action.perform m
  cases result <;> rfl

end Action

def fresh : Raw where
  rom := #[]
  ram := Array.replicate ramSize 0
  a := 0
  d := 0
  pc := 0
  status := .setup
  steps := 0

theorem fresh_eq : fresh = ({} : Machine).raw := rfl

inductive Reached : Raw → Prop where
  | fresh : Reached fresh
  | assembled {source : String} {program : Assembly.Program} {u : Raw}
      (h : Assembly.assemble source = .ok program)
      (hload : (load program.words).run Raw.fresh = .ok () u) : Reached u
  | next {c : Raw} (h : Reached c) (action : Action) : Reached (action.after c)

structure WellFormed (c : Raw) : Prop where
  ram : c.ram.size = 32768
  rom : c.rom.size ≤ 32768
  setup : c.status = .setup → c.rom = #[] ∧ c.steps = 0

theorem wellFormed_of_loaded {m : Machine} (hrom : m.rom.size ≤ 32768)
    (hstatus : m.status ≠ .setup) : m.raw.WellFormed :=
  ⟨m.ram.cells.size_toArray, hrom, fun h => absurd h hstatus⟩

theorem WellFormed.advance {m : Machine} (h : m.raw.WellFormed) : m.advance.raw.WellFormed := by
  cases hstatus : m.status with
  | running =>
    obtain hhalt | ⟨hrom, -, hloaded⟩ := advance_cases hstatus
    · rw [hhalt]
      exact wellFormed_of_loaded h.rom (by simp)
    · exact wellFormed_of_loaded (hrom ▸ h.rom) hloaded
  | _ =>
    have hsame : m.advance = m := by rw [Machine.advance, hstatus]
    rwa [hsame]

theorem WellFormed.runFrom {start budget fuel : Nat} {m : Machine} (h : m.raw.WellFormed) :
    (runFrom start budget fuel m).1.raw.WellFormed := by
  induction fuel generalizing m with
  | zero =>
    rw [Machine.runFrom]
    split <;> exact h
  | succ fuel ih =>
    rw [Machine.runFrom]
    split
    · split
      · exact h
      · exact ih h.advance
    · exact h

theorem WellFormed.perform {m : Machine} (h : m.raw.WellFormed) (action : Action) :
    (action.perform m).1.raw.WellFormed := by
  cases action with
  | load words =>
    simp only [Action.perform, Machine.load]
    split
    · exact h
    next hsize => exact wellFormed_of_loaded (Nat.le_of_not_lt hsize) nofun
  | reset => exact wellFormed_of_loaded h.rom nofun
  | step =>
    simp only [Action.perform, Machine.step]
    cases m.fault? with
    | some fault => exact h
    | none => exact h.advance
  | run budget => exact h.runFrom
  | poke address value => exact ⟨Vector.size_toArray _, h.rom, h.setup⟩
  | _ => exact ⟨h.ram, h.rom, h.setup⟩

theorem Reached.machine {c : Raw} (h : Reached c) :
    ∃ m : Machine, c = m.raw ∧ m.raw.WellFormed := by
  have hfresh : ({} : Machine).raw.WellFormed :=
    ⟨Vector.size_toArray _, Nat.zero_le _, fun _ => ⟨rfl, rfl⟩⟩
  induction h with
  | fresh => exact ⟨{}, rfl, hfresh⟩
  | @assembled source program u hsource hload =>
    have hu : (Action.load program.words).after Raw.fresh = u := by
      rw [Action.after, Action.act, hload]
    rw [fresh_eq, Action.after_raw] at hu
    exact ⟨_, hu.symm, hfresh.perform _⟩
  | next _ action ih =>
    obtain ⟨m, rfl, hm⟩ := ih
    exact ⟨_, action.after_raw m, hm.perform action⟩

theorem outcome_eq_error {α : Type} {x : Machine × Except Fault α} {stop : Stop} {u : Raw}
    (h : outcome x = .error stop u) :
    ∃ v fault, x = (v, .error fault) ∧ stop = .fault fault ∧ u = v.raw := by
  obtain ⟨v, result⟩ := x
  cases result with
  | ok y => cases h
  | error fault =>
    cases h
    exact ⟨v, fault, rfl, rfl, rfl⟩

theorem outcome_attempt_eq_error {m : Machine} {x : Except Fault Machine} {stop : Stop} {u : Raw}
    (h : outcome (attempt m x) = .error stop u) : u = m.raw := by
  obtain ⟨v, fault, hx, -, rfl⟩ := outcome_eq_error h
  cases x with
  | ok y => cases hx
  | error f =>
    cases hx
    rfl

/-- A reached machine is the data of a machine, on which no operation indexes outside an array or
goes on for ever. A load or a step that fails leaves it as it was, and a run that fails at an
instruction leaves it as the steps before that instruction do. -/
theorem reached_wellFormed_atomic {c : Raw} (h : Reached c) :
    c.WellFormed ∧
    (∃ m : Machine, c = m.raw ∧ (∀ action : Action, action.act.run c = outcome (action.perform m)) ∧
      (∀ budget, (run budget).run c = outcome (m.run budget)) ∧
      ∀ base, (stack base).run c = .ok (m.stack base) c) ∧
    (∀ (action : Action) (stop : Stop) (u : Raw), action.act.run c = .error stop u →
      ∃ fault, stop = .fault fault) ∧
    (∀ (words : Array Word) (stop : Stop) (u : Raw), (load words).run c = .error stop u → u = c) ∧
    (∀ (stop : Stop) (u : Raw), step.run c = .error stop u → u = c) ∧
    ∀ (budget : Nat) (fault : Fault) (pc : Word) (u : Raw),
      (run budget).run c = .error (.fault fault) u → fault.pc? = some pc →
        ∃ n, (stepTimes n).run c = .ok () u ∧ step.run u = .error (.fault fault) u ∧ u.pc = pc ∧
          u.steps = c.steps + n := by
  obtain ⟨m, rfl, hm⟩ := h.machine
  refine ⟨hm, ⟨m, rfl, Action.act_raw m, run_raw m, stack_raw m⟩, ?_, ?_, ?_, ?_⟩
  · intro action stop u hu
    rw [Action.act_raw] at hu
    obtain ⟨-, fault, -, hstop, -⟩ := outcome_eq_error hu
    exact ⟨fault, hstop⟩
  · intro words stop u hu
    rw [load_raw] at hu
    exact outcome_attempt_eq_error hu
  · intro stop u hu
    rw [step_raw] at hu
    exact outcome_attempt_eq_error hu
  · intro budget fault pc u hu hpc
    rw [run_raw] at hu
    obtain ⟨v, f, hv, hf, rfl⟩ := outcome_eq_error hu
    cases hf
    obtain ⟨n, htimes, hfault, hsteps⟩ := runFrom_fault hv hpc
    refine ⟨n, htimes, ?_, pc_of_fault hfault hpc, hsteps⟩
    rw [step_raw, Machine.step, hfault]
    rfl

/-- A program whose fifth instruction stores beyond the memory. -/
def overrun : Machine where
  rom := #[0x0005, 0xEC10, 0x7FFF, 0xEDE0, 0xE308]
  status := .running

def overrunning : Machine :=
  { overrun with a := 0x8000, d := 5, pc := 4, steps := 4 }

theorem reached_overrun :
    Reached overrun.raw ∧
    (run 10).run overrun.raw = .error (.fault (.outOfBounds 0x8000 4)) overrunning.raw ∧
    (stepTimes 4).run overrun.raw = .ok () overrunning.raw ∧
    step.run overrunning.raw = .error (.fault (.outOfBounds 0x8000 4)) overrunning.raw := by
  have hreached : Reached overrun.raw := by
    have hload : (Action.load overrun.rom).after fresh = overrun.raw := Action.after_raw _ {}
    exact hload ▸ .next .fresh _
  have hrun : (run 10).run overrun.raw =
      .error (.fault (.outOfBounds 0x8000 4)) overrunning.raw := by
    rw [run_raw]
    rfl
  obtain ⟨-, -, -, -, -, hfault⟩ := reached_wellFormed_atomic hreached
  obtain ⟨n, htimes, hstep, -, hsteps⟩ := hfault 10 _ 4 _ hrun rfl
  have hn : 4 = 0 + n := hsteps
  have hn' : n = 4 := by omega
  exact ⟨hreached, hrun, hn' ▸ htimes, hstep⟩

end HackStack.Machine.Raw
