import HackStack.Proofs.Operations

set_option autoImplicit false

namespace HackStack

open Assembly Lowering Access

theorem Word.signed_neg {w : Word} (h : w ≠ 0x8000) : signed (-w) = -signed w := by
  have hlt : w.toNat < 65536 := w.toNat_lt
  have hne : w.toNat ≠ 32768 := fun heq => h (UInt16.toNat_inj.1 heq)
  have hneg : (-w).toNat = (65536 - w.toNat) % 65536 := UInt16.toNat_neg w
  simp only [signed, isNegative, decide_eq_true_eq, hneg]
  split <;> split <;> omega

theorem Operation.truth_eq_ones_iff (b : Bool) : Operation.truth b = 0xFFFF ↔ b = true := by
  cases b <;> decide

namespace Machine

structure BeforeOperation (m : Machine) (p : Program) (unit : String) (op : Operation)
    (position : Nat) (sp left right : Word) : Prop where
  fragment : m.AtFragment p (operate unit op position)
  pointer : m.ram.read 0 = sp
  low : 3 ≤ sp.toNat
  high : sp.toNat ≤ 32768
  left : m.ram.read (sp - 2) = left
  right : m.ram.read (sp - 1) = right

/-- Wherever the code of an operation stands in a program, executing it on two operands puts a result in
their place. -/
def Yields (op : Operation) (left right result : Word) : Prop :=
  ∀ (m : Machine) (p : Program) (unit : String) (position : Nat) (sp : Word),
    BeforeOperation m p unit op position sp left right →
      ∃ u, m.Leaves (operate unit op position) u ∧ u.ram.read 0 = sp - 1 ∧
        u.ram.read (sp - 2) = result

def Holds (op : Operation) (left right : Word) : Prop := Yields op left right 0xFFFF

def Fails (op : Operation) (left right : Word) : Prop := Yields op left right 0

theorem exists_beforeOperation (op : Operation) (left right : Word) :
    ∃ m p unit position sp, BeforeOperation m p unit op position sp left right := by
  have hwritable : ∀ i ∈ operate "Main" op 0, i.Writable :=
    fragment_writable (by decide) 0 (c := .operate op) trivial
  have hbind : Bindable (operate "Main" op 0) := by
    rw [Bindable]
    cases op <;> decide
  have hsize : codeSize (operate "Main" op 0) ≤ romSize := by
    cases op <;> decide
  obtain ⟨p, hp⟩ := exists_atFragment hwritable hbind hsize
  let mem : Memory := ((Memory.zero.write 256 left).write 257 right).write 0 258
  have hfragment := hp [] (operate "Main" op 0) [] ⟨p.words, mem, 0, 0, 0, .running, 0⟩ (by simp)
    rfl rfl rfl
  refine ⟨_, p, "Main", 0, 258, hfragment, Memory.read_write_self (by decide), by decide, by decide,
    ?_, ?_⟩
  · change mem.read 256 = left
    rw [Memory.read_write_ne (by decide), Memory.read_write_ne (by decide),
      Memory.read_write_self (by decide)]
  · change mem.read 257 = right
    rw [Memory.read_write_ne (by decide), Memory.read_write_self (by decide)]

section Operands

variable {op : Operation} {left right : Word}

/-- Executing the code of an operation on two operands yields the value of the operation and nothing
else. -/
theorem yields_iff (hop : op.isUnary = false) {result : Word} :
    Yields op left right result ↔ result = op.value left right := by
  have hvalue : Yields op left right (op.value left right) := by
    rintro m p unit position sp ⟨hfragment, hsp, hlow, hhigh, rfl, rfl⟩
    obtain ⟨mem, hmem, hpointer, hresult, -⟩ := Memory.operate?_spec hlow hhigh hsp op
    obtain ⟨u, hleaves, -, -, rfl, -⟩ := hfragment.leaves_operate hsp hlow hhigh hmem
    have hpred := Word.toNat_pred (show 1 ≤ sp.toNat by omega)
    rw [Operation.stackEffect, hop, if_neg Bool.false_ne_true] at hpointer
    rw [Operation.cell, hop, if_neg Bool.false_ne_true] at hresult
    exact ⟨u, hleaves, UInt16.toNat_inj.1 (by omega), hresult⟩
  constructor
  · intro h
    obtain ⟨m, p, unit, position, sp, hbefore⟩ := exists_beforeOperation op left right
    obtain ⟨u, hleaves, -, hresult⟩ := h m p unit position sp hbefore
    obtain ⟨v, hleaves', -, hresult'⟩ := hvalue m p unit position sp hbefore
    rw [← hresult, hleaves.unique hleaves', hresult']
  · rintro rfl
    exact hvalue

theorem yields_comparison_iff (hop : op.isComparison) {result : Word} :
    Yields op left right result ↔ op.value left right = result := by
  obtain ⟨-, -, -, hbinary, -⟩ := operate_comparison "" 0 hop
  rw [yields_iff hbinary, eq_comm]

/-- A comparison yields false exactly if it does not yield true. -/
theorem fails_iff (hop : op.isComparison) : Fails op left right ↔ ¬ Holds op left right := by
  obtain ⟨condition, -, -, -, hvalue⟩ := operate_comparison "" 0 hop
  rw [Fails, Holds, yields_comparison_iff hop, yields_comparison_iff hop, hvalue,
    Operation.truth_eq_zero_iff, Operation.truth_eq_ones_iff, Bool.not_eq_true]

theorem holds_eq_iff : Holds .eq left right ↔ Word.signed (left - right) = 0 := by
  have hzero : left - right = 0 ↔ Word.signed (left - right) = 0 := by
    obtain ⟨heq, hsigned⟩ | ⟨hne, -, hsigned⟩ | ⟨hne, -, hsigned⟩ :=
      Jump.signed_cases (left - right)
    · exact iff_of_true heq hsigned
    · exact iff_of_false hne (Int.ne_of_lt hsigned)
    · exact iff_of_false hne (Int.ne_of_gt hsigned)
  rw [Holds, yields_comparison_iff rfl, Operation.value, Operation.truth_eq_ones_iff,
    decide_eq_true_iff, hzero]

theorem holds_gt_iff : Holds .gt left right ↔ 0 < Word.signed (left - right) := by
  rw [Holds, yields_comparison_iff rfl, Operation.value, Operation.truth_eq_ones_iff,
    decide_eq_true_iff]

theorem holds_lt_iff : Holds .lt left right ↔ Word.signed (left - right) < 0 := by
  rw [Holds, yields_comparison_iff rfl, Operation.value, Operation.truth_eq_ones_iff,
    decide_eq_true_iff]

end Operands

/-- Exchanging two words changes the sign of their difference, unless they differ by the sign bit. -/
theorem signed_exchanged (a b : Word) :
    (a - b ≠ 0x8000 ∧ Word.signed (b - a) = -Word.signed (a - b)) ∨
      (a - b = 0x8000 ∧ Word.signed (a - b) = -32768 ∧ Word.signed (b - a) = -32768) := by
  rw [← UInt16.neg_sub (a := a) (b := b)]
  by_cases h : a - b = 0x8000
  · rw [h]
    exact .inr ⟨rfl, by decide, by decide⟩
  · exact .inl ⟨h, Word.signed_neg h⟩

end Machine

end HackStack
