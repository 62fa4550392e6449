import HackStack.Proofs.Budgets

set_option autoImplicit false

namespace HackStack.Machine

inductive Executes : Nat → Machine → Machine → Prop where
  | refl {m : Machine} (hrun : m.status = .running) : Executes 0 m m
  | next {n : Nat} {m u : Machine} {w : Word} (hrun : m.status = .running)
      (hw : m.fetch = some w) (hok : m.refusal? w = none) (tail : Executes n (m.execute w) u) :
      Executes (n + 1) m u

/-- The result of a run for someone who has counted `k` instructions before it. -/
def resultAfter (k : Nat) : Except Fault Nat → Except Fault Nat
  | .ok n => .ok (k + n)
  | .error (.stepLimit budget) => .error (.stepLimit (k + budget))
  | .error fault => .error fault

section Steps

variable {m : Machine}

theorem fault?_of_fetch {w : Word} (hrun : m.status = .running) (hw : m.fetch = some w) :
    m.fault? = m.refusal? w := by
  simp only [fault?, hrun, hw, Option.bind_some]

theorem advance_of_fetch {w : Word} (hrun : m.status = .running) (hw : m.fetch = some w) :
    m.advance = m.execute w := by
  simp only [advance, hrun, hw]

theorem steps_le_advance (hrun : m.status = .running) : m.steps ≤ m.advance.steps := by
  obtain hhalt | ⟨-, hsteps, -⟩ := advance_cases hrun
  · rw [hhalt]
  · omega

/-- A fault of a running machine is laid to an instruction, so it is not the limit of a budget. -/
theorem fault_ne_stepLimit {fault : Fault} (hrun : m.status = .running)
    (h : m.fault? = some fault) (budget : Nat) : fault ≠ .stepLimit budget := by
  rintro rfl
  rw [fault?, hrun] at h
  obtain ⟨w, -, hw⟩ := Option.bind_eq_some_iff.1 h
  cases pc_of_refusal hw

theorem resultAfter_fault {fault : Fault} (hrun : m.status = .running)
    (h : m.fault? = some fault) (k : Nat) : resultAfter k (.error fault) = .error fault := by
  cases fault with
  | stepLimit budget => exact absurd rfl (fault_ne_stepLimit hrun h budget)
  | _ => rfl

end Steps

namespace Executes

variable {k : Nat} {m u : Machine}

theorem running (h : Executes k m u) : m.status = .running := by
  cases h with
  | refl hrun => exact hrun
  | next hrun _ _ _ => exact hrun

theorem steps_eq (h : Executes k m u) : u.steps = m.steps + k := by
  induction h with
  | refl _ => rfl
  | @next n m u w _ _ _ _ ih =>
    have hcount := (m.execute_frame w).2.1
    omega

/-- A run goes on from where some of its instructions have led. -/
theorem runFrom_add (h : Executes k m u) (start budget fuel : Nat) :
    runFrom start budget (k + fuel) m = runFrom start budget fuel u := by
  induction h with
  | refl _ => rw [Nat.zero_add]
  | next hrun hw hok _ ih =>
    rw [Nat.succ_add, runFrom, if_pos hrun, fault?_of_fetch hrun hw, hok, advance_of_fetch hrun hw]
    exact ih

theorem runFrom_limit (h : Executes k m u) (start budget : Nat) :
    runFrom start budget k m = (u, .error (.stepLimit budget)) := by
  have hlast : u.status = .running := by
    induction h with
    | refl hrun => exact hrun
    | next _ _ _ _ ih => exact ih
  have hsplit := h.runFrom_add start budget 0
  rw [Nat.add_zero] at hsplit
  rw [hsplit, runFrom, if_pos hlast]

end Executes

/-- A run is cut off exactly if there is an instruction for each unit of its fuel. -/
theorem runFrom_eq_limit_iff {start budget fuel : Nat} {m u : Machine} :
    runFrom start budget fuel m = (u, .error (.stepLimit budget)) ↔ Executes fuel m u := by
  refine ⟨fun h => ?_, fun h => h.runFrom_limit start budget⟩
  induction fuel generalizing m with
  | zero =>
    rw [runFrom] at h
    split at h
    next hrun =>
      cases h
      exact .refl hrun
    next => cases h
  | succ fuel ih =>
    rw [runFrom] at h
    split at h
    next hrun =>
      cases hfault : m.fault? with
      | some fault =>
        rw [hfault] at h
        obtain ⟨rfl, hlimit⟩ := Prod.mk.inj h
        exact absurd (Except.error.inj hlimit) (fault_ne_stepLimit hrun hfault budget)
      | none =>
        rw [hfault] at h
        have hrest := ih h
        -- a step that leaves the program stops the machine, and nothing is executed after it
        cases hw : m.fetch with
        | none =>
          have hstopped := hrest.running
          simp only [advance, hrun, hw] at hstopped
          cases hstopped
        | some w =>
          rw [advance_of_fetch hrun hw] at hrest
          exact .next hrun hw ((fault?_of_fetch hrun hw).symm.trans hfault) hrest
    next => cases h

/-- A run that starts to count `k` instructions earlier, with a budget larger by `k`, ends in the same
machine. -/
theorem runFrom_earlier {start k budget fuel : Nat} {m : Machine} (h : start + k ≤ m.steps) :
    runFrom start (k + budget) fuel m =
      ((runFrom (start + k) budget fuel m).1,
        resultAfter k (runFrom (start + k) budget fuel m).2) := by
  have hstopped : m.steps - start = k + (m.steps - (start + k)) := by omega
  induction fuel generalizing m with
  | zero =>
    simp only [runFrom]
    split
    next => rfl
    next => rw [hstopped]; rfl
  | succ fuel ih =>
    simp only [runFrom]
    split
    next hrun =>
      cases hfault : m.fault? with
      | some fault => rw [resultAfter_fault hrun hfault]
      | none =>
        have hnext := Nat.le_trans h (steps_le_advance hrun)
        exact ih hnext (by omega)
    next => rw [hstopped]; rfl

/-- A run that reports its limit has executed as many instructions as its budget, and going on with
another budget gives the machine and the result of a single run with both budgets. -/
theorem run_resumed {m u : Machine} {b : Nat} (h : m.run b = (u, .error (.stepLimit b))) (n : Nat) :
    Executes b m u ∧ u.steps = m.steps + b ∧
      m.run (b + n) = ((u.run n).1, resultAfter b (u.run n).2) := by
  have hexecutes := runFrom_eq_limit_iff.1 h
  have hsteps := hexecutes.steps_eq
  refine ⟨hexecutes, hsteps, ?_⟩
  calc m.run (b + n) = runFrom m.steps (b + n) n u := hexecutes.runFrom_add _ _ n
    _ = _ := runFrom_earlier (Nat.le_of_eq hsteps.symm)
    _ = ((u.run n).1, resultAfter b (u.run n).2) := by rw [← hsteps]; rfl

/-- A run over six instructions is cut off behind the last of them. Going on, the machine finds that it
has left the program and counts nothing more; the single run counts six. -/
theorem run_resumed_summing : ∃ u, summing.run 6 = (u, .error (.stepLimit 6)) ∧
    Executes 6 summing u ∧ (u.run 1).2 = .ok 0 ∧ summing.run 7 = ((u.run 1).1, .ok 6) := by
  have hrun : ∃ u, summing.run 6 = (u, .error (.stepLimit 6)) ∧ (u.run 1).2 = .ok 0 := ⟨_, rfl, rfl⟩
  obtain ⟨u, hrun, hlast⟩ := hrun
  obtain ⟨hexecutes, -, hboth⟩ := run_resumed hrun 1
  rw [hlast] at hboth
  exact ⟨u, hrun, hexecutes, hlast, hboth⟩

end HackStack.Machine
