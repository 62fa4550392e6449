import HackStack.Proofs.InPlace

set_option autoImplicit false

namespace HackStack.Machine

inductive Ends : Nat → Machine → Machine → Prop where
  | stopped {m : Machine} (h : m.status ≠ .running) : Ends 0 m m
  | next {n : Nat} {m u : Machine} (hrun : m.status = .running) (hok : m.fault? = none)
      (tail : Ends n m.advance u) : Ends (n + 1) m u

/-- A jump that stops the machine goes to a word of the program. -/
theorem fetch_of_isHaltLoop {m : Machine} {pc : Word} (h : isHaltLoop m.rom pc m.pc = true) :
    m.fetch ≠ none := by
  simp only [isHaltLoop, Bool.and_eq_true, beq_iff_eq] at h
  rw [fetch, h.2]
  exact Option.some_ne_none _

theorem fetch_of_execute_halted {m : Machine} {w : Word} (hrun : m.status = .running)
    (h : (m.execute w).status ≠ .running) : (m.execute w).fetch ≠ none := by
  unfold execute at h ⊢
  split at h
  next => exact absurd hrun h
  next hfirst =>
    rw [if_neg hfirst]
    have hloop : Jump.ofBits w = .always ∧ isHaltLoop m.rom m.pc m.a = true := by
      simp only [compute, hrun] at h
      split at h
      next hl => simpa using hl
      next => exact absurd rfl h
    have hpc : (m.compute w).pc = m.a := by
      simp only [compute, hloop.1, Jump.holds_always, if_true]
    rw [← hpc] at hloop
    exact fetch_of_isHaltLoop hloop.2

/-- The last step of a run leaves the program or counts as an instruction inside it. -/
theorem advance_last {m : Machine} (hrun : m.status = .running) (h : m.advance.status ≠ .running) :
    (m.advance.fetch = none ∧ m.advance.steps = m.steps ∧
        { m.advance with status := .running } = m) ∨
      (m.advance.fetch ≠ none ∧ m.advance.steps = m.steps + 1) := by
  simp only [advance, hrun] at h ⊢
  cases hfetch : m.fetch with
  | none =>
    left
    refine ⟨hfetch, rfl, ?_⟩
    rw [← hrun]
  | some w =>
    right
    simp only [hfetch] at h
    exact ⟨fetch_of_execute_halted hrun h, (m.execute_frame w).2.1⟩

theorem steps_advance {m : Machine} (hrun : m.status = .running)
    (h : m.advance.status = .running) : m.advance.steps = m.steps + 1 := by
  obtain hhalt | ⟨-, hsteps, -⟩ := advance_cases hrun
  · rw [hhalt] at h
    cases h
  · exact hsteps

namespace Ends

variable {n : Nat} {m u : Machine}

/-- Every step but one that leaves the program counts. -/
theorem steps_eq (h : Ends n m u) (hrun : m.status = .running) :
    u.steps + (if u.fetch = none then 1 else 0) = m.steps + n := by
  induction h with
  | stopped h => exact absurd hrun h
  | @next n m u hrun hok tail ih =>
    by_cases hnext : m.advance.status = .running
    · have hsteps := steps_advance hrun hnext
      have hrest := ih hnext
      omega
    · cases tail with
      | next hrun' _ _ => exact absurd hrun' hnext
      | stopped _ =>
        obtain ⟨hout, hsteps, -⟩ | ⟨hin, hsteps⟩ := advance_last hrun hnext
        · rw [if_pos hout, hsteps]
        · rw [if_neg hin, hsteps]

variable (start budget : Nat)

theorem runFrom_enough (h : Ends n m u) {fuel : Nat} (hfuel : n ≤ fuel) :
    runFrom start budget fuel m = (u, .ok (u.steps - start)) := by
  induction h generalizing fuel with
  | stopped h => exact runFrom_stopped h
  | next hrun hok _ ih =>
    cases fuel with
    | zero => omega
    | succ fuel =>
      rw [runFrom, if_pos hrun, hok]
      exact ih (Nat.le_of_succ_le_succ hfuel)

theorem runFrom_short (h : Ends n m u) {fuel : Nat} (hfuel : fuel < n) :
    (runFrom start budget fuel m).2 = .error (.stepLimit budget) := by
  induction h generalizing fuel with
  | stopped _ => omega
  | next hrun hok _ ih =>
    cases fuel with
    | zero => rw [runFrom, if_pos hrun]
    | succ fuel =>
      rw [runFrom, if_pos hrun, hok]
      exact ih (Nat.lt_of_succ_lt_succ hfuel)

/-- One step before a machine notices that it has left the program, only its status is another. -/
theorem runFrom_before_leaving (h : Ends (n + 1) m u) (hout : u.fetch = none) :
    runFrom start budget n m = ({ u with status := .running }, .error (.stepLimit budget)) := by
  induction n generalizing m with
  | zero =>
    cases h with
    | next hrun hok tail =>
      cases tail with
      | stopped hstop =>
        obtain ⟨-, -, hsame⟩ | ⟨hin, -⟩ := advance_last hrun hstop
        · rw [hsame, runFrom, if_pos hrun]
        · exact absurd hout hin
  | succ n ih =>
    cases h with
    | next hrun hok tail =>
      rw [runFrom, if_pos hrun, hok]
      exact ih tail

end Ends

theorem ends_of_runFrom {start budget fuel k : Nat} {m u : Machine}
    (h : runFrom start budget fuel m = (u, .ok k)) : ∃ n, Ends n m u ∧ k = u.steps - start := by
  induction fuel generalizing m with
  | zero =>
    rw [runFrom] at h
    split at h
    next => cases h
    next hstop =>
      cases h
      exact ⟨0, .stopped hstop, rfl⟩
  | succ fuel ih =>
    rw [runFrom] at h
    split at h
    next hrun =>
      cases hok : m.fault? with
      | some fault =>
        rw [hok] at h
        cases h
      | none =>
        rw [hok] at h
        obtain ⟨n, hends, hk⟩ := ih h
        exact ⟨n + 1, .next hrun hok hends, hk⟩
    next hstop =>
      cases h
      exact ⟨0, .stopped hstop, rfl⟩

/-- A run that succeeds takes as many steps as it counts, and one more if it ends outside the program. -/
theorem ends_of_run {m u : Machine} {n k : Nat} (h : m.run n = (u, .ok k)) :
    Ends (k + if m.status = .running ∧ u.fetch = none then 1 else 0) m u ∧ k = u.steps - m.steps := by
  obtain ⟨j, hends, rfl⟩ := ends_of_runFrom h
  refine ⟨?_, rfl⟩
  by_cases hrun : m.status = .running
  · have hsteps := hends.steps_eq hrun
    cases hends with
    | stopped hstop => exact absurd hrun hstop
    | @next j _ _ _ hok tail =>
      have hcount : u.steps - m.steps + (if m.status = .running ∧ u.fetch = none then 1 else 0) =
          j + 1 := by
        by_cases hout : u.fetch = none
        · rw [if_pos hout] at hsteps
          rw [if_pos ⟨hrun, hout⟩]
          omega
        · rw [if_neg hout] at hsteps
          rw [if_neg fun h => hout h.2]
          omega
      rw [hcount]
      exact .next hrun hok tail
  · cases hends with
    | next hrun' _ _ => exact absurd hrun' hrun
    | stopped _ =>
      rw [if_neg fun h => hrun h.1, Nat.sub_self]
      exact .stopped hrun

/-- A run that ends after `k` instructions ends in the same way with every budget above `k`, and reports
the limit with every budget below. With a budget of `k` it ends exactly if it is not the program
counter's leaving the program that ends it; otherwise it reports the limit after the last instruction. -/
theorem run_with_budget_iff {m u : Machine} {n k : Nat} (h : m.run n = (u, .ok k)) :
    (∀ b, k < b → m.run b = (u, .ok k)) ∧
    (∀ b, b < k → (m.run b).2 = .error (.stepLimit b)) ∧
    (m.run k = (u, .ok k) ↔ ¬ (m.status = .running ∧ u.fetch = none)) ∧
    (m.status = .running → u.fetch = none →
      m.run k = ({ u with status := .running }, .error (.stepLimit k))) := by
  obtain ⟨hends, hk⟩ := ends_of_run h
  have henough {b : Nat} (hb : k + (if m.status = .running ∧ u.fetch = none then 1 else 0) ≤ b) :
      m.run b = (u, .ok k) := by
    rw [hk]
    exact hends.runFrom_enough m.steps b hb
  have hleaving (hout : m.status = .running ∧ u.fetch = none) :
      m.run k = ({ u with status := .running }, .error (.stepLimit k)) := by
    rw [if_pos hout] at hends
    exact hends.runFrom_before_leaving m.steps k hout.2
  refine ⟨fun b hb => henough ?_, fun b hb => ?_, ⟨fun hsame hout => ?_, fun hin => henough ?_⟩,
    fun hrun hout => hleaving ⟨hrun, hout⟩⟩
  · split <;> omega
  · exact hends.runFrom_short m.steps b (Nat.lt_of_lt_of_le hb (Nat.le_add_right _ _))
  · have hresult := congrArg Prod.snd (hsame.symm.trans (hleaving hout))
    cases hresult
  · rw [if_neg hin, Nat.add_zero]

/-- The program of `@7`, `D=A`, `@8`, `D=D+A`, `@100`, `M=D`. -/
def summing : Machine where
  rom := #[7, 0xEC10, 8, 0xE090, 100, 0xE308]
  status := .running

/-- Six instructions are executed, but a budget of six is reported as too small. -/
theorem run_with_budget_summing : ∃ u, summing.run 100 = (u, .ok 6) ∧ summing.run 7 = (u, .ok 6) ∧
    summing.run 6 = ({ u with status := .running }, .error (.stepLimit 6)) := by
  have hrun : ∃ u, summing.run 100 = (u, .ok 6) ∧ u.fetch = none := ⟨_, rfl, rfl⟩
  obtain ⟨u, hrun, hout⟩ := hrun
  obtain ⟨hmore, -, -, hleaving⟩ := run_with_budget_iff hrun
  exact ⟨u, hrun, hmore 7 (by decide), hleaving rfl hout⟩

end HackStack.Machine
