import HackStack.Proofs.Execution
import Mathlib.Dynamics.FixedPoints.Basic

set_option autoImplicit false

/-! # Halting loops

A machine stops at a jump back to the instruction that loads its own address. Such a pair of
instructions repeats for ever, but it does nothing any more only if the jump stores nothing new: the
machine looks at the jump and at its target, not at what the jumping instruction computes and stores. -/

namespace HackStack

theorem Memory.write_eq_self_iff {mem : Memory} {a value : Word} (ha : a.toNat < ramSize) :
    mem.write a value = mem ↔ mem.read a = value := by
  constructor
  · intro h
    have hread := read_write mem a a value
    rw [h, if_pos ⟨rfl, ha⟩] at hread
    exact hread
  · intro h
    ext x
    rw [read_write]
    split
    next hx => rw [← hx.1, h]
    next => rfl

theorem Jump.holds_always (w : Word) : Jump.always.holds w = true := by
  simp [holds, always]

namespace Machine

def resumed (m : Machine) : Machine := { m with status := .running }

/-- The machine after `n` more steps. It is set back to work before each of them, since the loop that
stopped it stops it again. -/
def carryOn (m : Machine) : Nat → Except Fault Machine
  | 0 => .ok m
  | n + 1 => do
    let u ← m.carryOn n
    u.resumed.step

/-- What a word puts out over a memory and a data register while its own address is loaded. -/
def outputAt (w target : Word) (s : Memory × Word) : Word :=
  (Control.ofWord w).output s.2 (if w &&& 0x1000 != 0 then s.1.read target else target)

def storeAt (w target : Word) (s : Memory × Word) : Memory × Word :=
  let dest := Dest.ofBits (w >>> 3)
  (if dest.m then s.1.write target (outputAt w target s) else s.1,
    if dest.d then outputAt w target s else s.2)

def holdings (m : Machine) : Memory × Word := (m.ram, m.d)

theorem holdings_compute {m : Machine} {w target : Word} (ha : m.a = target) :
    (m.compute w).holdings = storeAt w target m.holdings := by
  subst ha
  rfl

theorem storeAt_fixed_iff {w target : Word} (htarget : target.toNat < ramSize) (s : Memory × Word) :
    Function.IsFixedPt (storeAt w target) s ↔
      ((Dest.ofBits (w >>> 3)).m → s.1.read target = outputAt w target s) ∧
        ((Dest.ofBits (w >>> 3)).d → s.2 = outputAt w target s) := by
  change storeAt w target s = s ↔ _
  rw [storeAt, Prod.ext_iff]
  apply and_congr
  · cases (Dest.ofBits (w >>> 3)).m with
    | false => simp
    | true => simp [Memory.write_eq_self_iff htarget]
  · cases (Dest.ofBits (w >>> 3)).d with
    | false => simp
    | true => simp [eq_comm]

/-- Other cells than the target are out of reach of the loop. -/
theorem read_storeAt {w target x : Word} (hx : x ≠ target) (s : Memory × Word) :
    (storeAt w target s).1.read x = s.1.read x := by
  have hne : ¬ (target = x ∧ target.toNat < ramSize) := fun h => hx h.1.symm
  simp only [storeAt]
  split
  · rw [Memory.read_write, if_neg hne]
  · rfl

theorem read_iterate_storeAt {w target x : Word} (hx : x ≠ target) (k : Nat) (s : Memory × Word) :
    ((storeAt w target)^[k] s).1.read x = s.1.read x := by
  induction k with
  | zero => rfl
  | succ k ih => rw [Function.iterate_succ_apply', read_storeAt hx, ih]

structure Circle (rom : Array Word) (w target : Word) : Prop where
  low : target.toNat < ramSize
  load : rom[target.toNat]? = some target
  back : rom[(target + 1).toNat]? = some w
  first : w &&& 0x8000 ≠ 0
  legal : w &&& 0x6000 = 0x6000
  always : Jump.ofBits w = .always

namespace Circle

variable {rom : Array Word} {w target : Word}

theorem step_load (h : Circle rom w target) {u : Machine} (hrom : u.rom = rom) (hpc : u.pc = target) :
    u.resumed.step = .ok (u.resumed.loadAddress target) := by
  have hfetch : u.resumed.fetch = some target := by
    change u.rom[u.pc.toNat]? = some target
    rw [hrom, hpc]
    exact h.load
  have hfirst : target &&& 0x8000 = 0 := by
    have hmod := Word.literal_and (Nat.le_of_lt_succ h.low)
    rw [← hmod, UInt16.and_assoc]
    exact UInt16.and_zero
  rw [step_of_fetch rfl hfetch (by simp only [refusal?, hfirst]; rfl)]
  simp only [execute, hfirst]
  rfl

theorem step_back (h : Circle rom w target) {u : Machine} (hrom : u.rom = rom)
    (hpc : u.pc = target + 1) (ha : u.a = target) :
    u.resumed.step = .ok (u.resumed.compute w) := by
  have hfetch : u.resumed.fetch = some w := by
    change u.rom[u.pc.toNat]? = some w
    rw [hrom, hpc]
    exact h.back
  have hlow : ¬ ramSize ≤ u.resumed.a.toNat := by
    change ¬ ramSize ≤ u.a.toNat
    rw [ha]
    exact Nat.not_le.2 h.low
  have hok : u.resumed.refusal? w = none := by
    simp [refusal?, h.first, h.legal, hlow]
  rw [step_of_fetch rfl hfetch hok]
  simp [execute, h.first]

theorem pc_back (h : Circle rom w target) {u : Machine} (ha : u.a = target) :
    (u.compute w).pc = target := by
  simp only [compute, h.always, Jump.holds_always, if_true, ha]

/-- A machine that has gone round some times, and once more over the first word at an odd count. -/
structure At (rom : Array Word) (w target : Word) (start : Memory × Word) (n : Nat) (u : Machine) :
    Prop where
  rom : u.rom = rom
  pc : u.pc = if n % 2 = 0 then target else target + 1
  loaded : n % 2 = 1 → u.a = target
  holdings : u.holdings = (storeAt w target)^[n / 2] start

theorem At.step (h : Circle rom w target) {start : Memory × Word} {n : Nat} {u : Machine}
    (hu : At rom w target start n u) :
    ∃ v, u.resumed.step = .ok v ∧ At rom w target start (n + 1) v := by
  -- the first word is met at an even count and the second at an odd one
  obtain heven | hodd := Nat.mod_two_eq_zero_or_one n
  · have hpc : u.pc = target := hu.pc.trans (if_pos heven)
    refine ⟨_, h.step_load hu.rom hpc, hu.rom, ?_, fun _ => rfl, ?_⟩
    · rw [if_neg (by omega), ← hpc]
      rfl
    · rw [show (n + 1) / 2 = n / 2 by omega, ← hu.holdings]
      rfl
  · have ha : u.resumed.a = target := hu.loaded hodd
    have hpc : u.pc = target + 1 := hu.pc.trans (if_neg (by omega))
    refine ⟨_, h.step_back hu.rom hpc ha, hu.rom, ?_, fun _ => by omega, ?_⟩
    · rw [if_pos (by omega)]
      exact h.pc_back ha
    · rw [holdings_compute ha, show (n + 1) / 2 = n / 2 + 1 by omega, Function.iterate_succ_apply',
        ← hu.holdings]
      rfl

theorem At.carryOn (h : Circle rom w target) {m : Machine} (hm : At rom w target m.holdings 0 m)
    (n : Nat) : ∃ u, m.carryOn n = .ok u ∧ At rom w target m.holdings n u := by
  induction n with
  | zero => exact ⟨m, rfl, hm⟩
  | succ n ih =>
    obtain ⟨u, hrun, hu⟩ := ih
    obtain ⟨v, hstep, hv⟩ := hu.step h
    refine ⟨v, ?_, hv⟩
    rw [Machine.carryOn, hrun]
    exact hstep

end Circle

/-- A jump that stops the machine is the second word of two that repeat. -/
theorem circle_of_halted {m : Machine} {w : Word} (hsize : m.rom.size ≤ Assembly.romSize)
    (hrun : m.status = .running) (hw : m.fetch = some w) {h : Machine} (hstep : m.step = .ok h)
    (hhalt : h.status = .halted) :
    h = m.compute w ∧ m.pc = m.a + 1 ∧ Circle m.rom w m.a := by
  have hok : m.refusal? w = none := by
    cases hr : m.refusal? w with
    | none => rfl
    | some fault => simp [step, fault?, hrun, hw, hr] at hstep
  rw [step_of_fetch hrun hw hok, Except.ok.injEq] at hstep
  subst hstep
  by_cases hfirst : w &&& 0x8000 = 0
  · simp [execute, hfirst, loadAddress, hrun] at hhalt
  have hexec : m.execute w = m.compute w := by simp [execute, hfirst]
  rw [hexec] at hhalt ⊢
  have hloop : Jump.ofBits w = .always ∧ isHaltLoop m.rom m.pc m.a = true := by
    simp only [compute, hrun] at hhalt
    split at hhalt
    next hl => simpa using hl
    next => cases hhalt
  obtain ⟨halways, hloop⟩ := hloop
  simp only [isHaltLoop, Bool.and_eq_true, decide_eq_true_eq, beq_iff_eq] at hloop
  obtain ⟨⟨-, hback⟩, hload⟩ := hloop
  have hpc : m.pc = m.a + 1 := by rw [hback, UInt16.sub_add_cancel]
  have hlegal : w &&& 0x6000 = 0x6000 := by
    simp only [refusal?, beq_iff_eq, hfirst, if_false] at hok
    by_contra hne
    simp [hne] at hok
  have hlow : m.a.toNat < ramSize := by
    obtain ⟨hlt, -⟩ := Array.getElem?_eq_some_iff.1 hload
    exact Nat.lt_of_lt_of_le hlt hsize
  exact ⟨rfl, hpc, hlow, hload, hpc ▸ hw, hfirst, hlegal, halways⟩

/-- Where a jump has stopped a machine, the two words of the loop would alternate for ever and touch no
cell but the one at the address of the loop. The memory and the data register stay as they are exactly
if they already hold what the jumping word stores, so always if it stores in neither. -/
theorem halt_loop_idle_iff {m h : Machine} {w : Word} (hsize : m.rom.size ≤ Assembly.romSize)
    (hrun : m.status = .running) (hw : m.fetch = some w) (hstep : m.step = .ok h)
    (hhalt : h.status = .halted) :
    (∀ n, ∃ u, h.carryOn n = .ok u ∧ u.pc = (if n % 2 = 0 then h.pc else m.pc) ∧
      ∀ x, x ≠ h.pc → u.ram.read x = h.ram.read x) ∧
    ((∀ n u, h.carryOn n = .ok u → u.ram = h.ram ∧ u.d = h.d) ↔
      ((Dest.ofBits (w >>> 3)).m → h.ram.read h.pc = outputAt w h.pc (h.ram, h.d)) ∧
        ((Dest.ofBits (w >>> 3)).d → h.d = outputAt w h.pc (h.ram, h.d))) ∧
    ((Dest.ofBits (w >>> 3)).m = false → (Dest.ofBits (w >>> 3)).d = false →
      ∀ n u, h.carryOn n = .ok u → u.ram = h.ram ∧ u.d = h.d) := by
  obtain ⟨rfl, hpc, hcircle⟩ := circle_of_halted hsize hrun hw hstep hhalt
  have htarget : (m.compute w).pc = m.a := hcircle.pc_back rfl
  have hruns := Circle.At.carryOn hcircle (m := m.compute w)
    ⟨rfl, htarget, fun hodd => absurd hodd (by decide), rfl⟩
  have hfixed : (∀ n u, (m.compute w).carryOn n = .ok u →
      u.ram = (m.compute w).ram ∧ u.d = (m.compute w).d) ↔
        Function.IsFixedPt (storeAt w m.a) (m.compute w).holdings := by
    constructor
    · intro hidle
      obtain ⟨u, hu, hat⟩ := hruns 2
      obtain ⟨hram, hd⟩ := hidle 2 u hu
      have hround : u.holdings = storeAt w m.a (m.compute w).holdings := hat.holdings
      exact hround.symm.trans (Prod.ext hram hd)
    · intro hfix n u hu
      obtain ⟨v, hv, hat⟩ := hruns n
      obtain rfl := Except.ok.inj (hu.symm.trans hv)
      have hsame := hat.holdings.trans (hfix.iterate (n / 2))
      exact ⟨congrArg Prod.fst hsame, congrArg Prod.snd hsame⟩
  have hsettled := hfixed.trans (storeAt_fixed_iff hcircle.low _)
  rw [htarget]
  refine ⟨fun n => ?_, hsettled, fun hm hd => hsettled.2 ?_⟩
  · obtain ⟨u, hu, hat⟩ := hruns n
    refine ⟨u, hu, hpc ▸ hat.pc, fun x hx => ?_⟩
    exact (congrArg (fun s => s.1.read x) hat.holdings).trans (read_iterate_storeAt hx _ _)
  · simp [hm, hd]

/-- A machine before the jump of `@0`, `D=D+1;JMP`. -/
def counting : Machine where
  rom := #[(Instruction.address 0).encode, (Instruction.compute ⟨.toD, .dPlusOne, .always⟩).encode]
  pc := 1
  status := .running

/-- The machine stops in a loop that would go on counting. -/
theorem halt_loop_counting : ∃ h, counting.step = .ok h ∧ h.status = .halted ∧
    ¬ ∀ n u, h.carryOn n = .ok u → u.ram = h.ram ∧ u.d = h.d := by
  have hw : counting.fetch = some (Instruction.compute ⟨.toD, .dPlusOne, .always⟩).encode := rfl
  have hstep := step_compute (m := counting) rfl hw (by decide)
  have hhalt : (counting.computed ⟨.toD, .dPlusOne, .always⟩).status = .halted := by decide
  refine ⟨_, hstep, hhalt, fun hidle => ?_⟩
  have hsettled := (halt_loop_idle_iff (by decide) rfl hw hstep hhalt).2.1.1 hidle
  exact absurd (hsettled.2 (by decide)) (by decide)

end Machine

end HackStack
