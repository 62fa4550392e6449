import HackStack.Proofs.Execution

set_option autoImplicit false

namespace HackStack

namespace Mnemonic

def operand? (d a m : Word) : Char → Option Word
  | '0' => some 0
  | '1' => some 1
  | 'D' => some d
  | 'A' => some a
  | 'M' => some m
  | _ => none

/-- The value that the text of a computation denotes. Arithmetic wraps. -/
def value? (d a m : Word) : List Char → Option Word
  | [x] => operand? d a m x
  | ['!', x] => (operand? d a m x).map fun v => ~~~v
  | ['-', x] => (operand? d a m x).map fun v => -v
  | [x, '+', y] => do return (← operand? d a m x) + (← operand? d a m y)
  | [x, '-', y] => do return (← operand? d a m x) - (← operand? d a m y)
  | [x, '&', y] => do return (← operand? d a m x) &&& (← operand? d a m y)
  | [x, '|', y] => do return (← operand? d a m x) ||| (← operand? d a m y)
  | _ => none

def condition (jump : String) (n : Int) : Bool :=
  match jump with
  | "JGT" => 0 < n
  | "JEQ" => n = 0
  | "JGE" => 0 ≤ n
  | "JLT" => n < 0
  | "JNE" => n ≠ 0
  | "JLE" => n ≤ 0
  | "JMP" => true
  | _ => false

theorem value?_text (c : Comp) (d a m : Word) :
    value? d a m c.text.toList = some (c.eval d (if c.readsMemory then m else a)) := by
  cases c with
  | y o | notY o | negY o | yPlusOne o | yMinusOne o | dPlusY o | dMinusY o | yMinusD o | dAndY o
  | dOrY o => cases o <;> rfl
  | _ => rfl

theorem mem_text_iff (c : Comp) : 'M' ∈ c.text.toList ↔ c.readsMemory := by
  have h : ∀ c ∈ Comp.all, 'M' ∈ c.text.toList ↔ c.readsMemory := by decide
  exact h c (Comp.mem_all c)

end Mnemonic

theorem Mnemonic.condition_text (j : Jump) (w : Word) : condition j.text w.signed = j.holds w := by
  rw [Jump.holds_eq, Bool.eq_iff_iff]
  obtain ⟨lt, eq, gt⟩ := j
  cases lt <;> cases eq <;> cases gt <;> simp [Jump.text, condition] <;> omega

/-- The text of a computation denotes what the arithmetic unit puts out under the control bits of the
instruction. -/
theorem Mnemonic.value?_output (c : Compute) (d a m : Word) :
    value? d a m c.comp.text.toList = some ((Control.ofWord (Instruction.compute c).encode).output d
      (if 'M' ∈ c.comp.text.toList then m else a)) := by
  rw [value?_text, Instruction.control_compute, Comp.output_lines]
  simp only [mem_text_iff]

namespace Machine

structure Performs (m : Machine) (c : Compute) (out : Word) (u : Machine) : Prop where
  ram : ∀ x, u.ram.read x = if c.dest.m ∧ x = m.a then out else m.ram.read x
  a : u.a = if c.dest.a then out else m.a
  d : u.d = if c.dest.d then out else m.d
  pc : u.pc = if Mnemonic.condition c.jump.text out.signed then m.a else m.pc + 1
  status : u.status = if c.jump = .always ∧ isHaltLoop m.rom m.pc m.a then .halted else m.status
  steps : u.steps = m.steps + 1
  rom : u.rom = m.rom

theorem computed_performs {m : Machine} {c : Compute} (h : ¬ (c.usesMemory ∧ ramSize ≤ m.a.toNat)) :
    m.Performs c (c.result m.core) (m.computed c) where
  ram x := by
    cases hm : c.dest.m with
    | false => simp [computed, hm]
    | true =>
      have hlt : m.a.toNat < ramSize := by
        simp only [Compute.usesMemory, hm, Bool.or_true, true_and, Nat.not_le] at h
        exact h
      simp only [computed, hm, if_true, Memory.read_write, hlt, and_true, true_and, eq_comm]
  a := rfl
  d := rfl
  pc := by simp only [computed, Mnemonic.condition_text]
  status := by simp [computed]
  steps := rfl
  rom := rfl

/-- A running machine does what the mnemonics of the instruction under its program counter say, or
refuses it because it uses a cell that does not exist. -/
theorem step_performs_mnemonics {m : Machine} (hrun : m.status = .running) :
    (∀ c : Compute, m.fetch = some (Instruction.compute c).encode →
      ('M' ∈ c.comp.text.toList ∨ c.dest.m) ∧ 32768 ≤ m.a.toNat →
      m.step = .error (.outOfBounds m.a m.pc)) ∧
    (∀ c : Compute, m.fetch = some (Instruction.compute c).encode →
      ¬ (('M' ∈ c.comp.text.toList ∨ c.dest.m) ∧ 32768 ≤ m.a.toNat) →
      ∃ out u, Mnemonic.value? m.d m.a (m.ram.read m.a) c.comp.text.toList = some out ∧
        (Control.ofWord (Instruction.compute c).encode).output m.d
          (if 'M' ∈ c.comp.text.toList then m.ram.read m.a else m.a) = out ∧
        m.step = .ok u ∧ m.Performs c out u) ∧
    (∀ v : Word, m.fetch = some (Instruction.address v).encode → v.toNat ≤ 32767 →
      m.step = .ok { m with a := v, pc := m.pc + 1, steps := m.steps + 1 }) := by
  have hmemory (c : Compute) : 'M' ∈ c.comp.text.toList ∨ c.dest.m ↔ c.usesMemory := by
    rw [Mnemonic.mem_text_iff, Compute.usesMemory, Bool.or_eq_true]
  simp only [hmemory]
  refine ⟨fun c hw h => step_refused hrun hw h, fun c hw h => ?_, fun v hw hv => ?_⟩
  · have hvalue := Mnemonic.value?_text c.comp m.d m.a (m.ram.read m.a)
    have hout := (Mnemonic.value?_output c m.d m.a (m.ram.read m.a)).symm.trans hvalue
    exact ⟨c.result m.core, m.computed c, hvalue, Option.some.inj hout, step_compute hrun hw h,
      computed_performs h⟩
  · rw [step_address hrun hw, Word.literal_and hv]
    rfl

section Sample

/-- A machine before `AMD=D-M;JLT`. -/
def subtracting (a : Word) : Machine where
  rom := #[(Instruction.compute ⟨⟨true, true, true⟩, .dMinusY .m, .ifNegative⟩).encode]
  ram := Memory.zero.write 5 10
  a := a
  d := 3
  status := .running

/-- Three minus ten is stored in all three places, in memory at the old address, and jumps there. -/
theorem step_performs_subtracting :
    (∃ u, (subtracting 5).step = .ok u ∧ u.ram.read 5 = 65529 ∧ u.a = 65529 ∧ u.d = 65529 ∧ u.pc = 5) ∧
      (subtracting 40000).step = .error (.outOfBounds 40000 0) := by
  have hread : (subtracting 5).ram.read 5 = 10 := by
    rw [subtracting, Memory.read_write, if_pos (by decide)]
  refine ⟨?_, (step_performs_mnemonics rfl).1 _ rfl ⟨.inr rfl, by decide⟩⟩
  obtain ⟨out, u, hvalue, -, hstep, hperforms⟩ :=
    (step_performs_mnemonics (m := subtracting 5) rfl).2.1 _ rfl (by decide)
  change Mnemonic.value? 3 5 ((subtracting 5).ram.read 5) "D-M".toList = some out at hvalue
  rw [hread] at hvalue
  have hout : out = 65529 := (Option.some.inj hvalue).symm
  subst hout
  exact ⟨u, hstep, hperforms.ram 5, hperforms.a, hperforms.d, hperforms.pc.trans (if_pos (by decide))⟩

end Sample

end Machine

end HackStack
