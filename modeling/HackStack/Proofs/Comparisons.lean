import HackStack.Proofs.Fragments

set_option autoImplicit false

namespace HackStack

open Assembly Statement Lowering Access

namespace Jump

theorem holds_ifZero (w : Word) : ifZero.holds w = decide (w = 0) := by
  by_cases h : w = 0 <;> simp [holds, ifZero, h]

theorem holds_ifNonzero (w : Word) : ifNonzero.holds w = decide (w ≠ 0) := by
  by_cases h : w = 0 <;> simp [holds, ifNonzero, h]

theorem holds_ifPositive (w : Word) : ifPositive.holds w = decide (0 < Word.signed w) := by
  simp [holds_eq, ifPositive]

theorem holds_ifNegative (w : Word) : ifNegative.holds w = decide (Word.signed w < 0) := by
  simp [holds_eq, ifNegative]

end Jump

namespace Lowering

def difference : List Statement :=
  popD ++ [assign .toA (.yMinusOne .a), assign .toD (.yMinusD .m)]

def answer (comp : Comp) : List Statement :=
  [.symbol stackPointer, assign .toA (.yMinusOne .m), assign .toM comp]

theorem comparison_eq (unit : String) (op : Operation) (condition : Jump) (position : Nat) :
    comparison unit op condition position = difference ++
      (.symbol (trueLabel unit op position) :: branch .d condition :: (answer .zero ++
        (.symbol (endLabel unit op position) :: goto :: .label (trueLabel unit op position) ::
          (answer .minusOne ++ [.label (endLabel unit op position)])))) := rfl

end Lowering

/-- The operations whose code jumps. -/
def Operation.isComparison : Operation → Bool
  | .eq | .gt | .lt => true
  | _ => false

section Operations

variable (unit : String) {op : Operation} (position : Nat)

theorem operate_falls (h : op.isComparison = false) :
    ∀ i ∈ operate unit op position, i.falls := by
  cases op with
  | eq | gt | lt => cases h
  | _ => exact List.all_eq_true.1 rfl

/-- The code of an operation that does not compare has the effect of the operation. -/
theorem exec_operate (table : SymbolTable) (s : Core) (h : op.isComparison = false) :
    (exec table (operate unit op position) s).map Core.ram = shared.operate? s.ram op := by
  cases op with
  | add => exact exec_binary table s rfl rfl fun d y => UInt16.add_comm d y
  | sub => exact exec_binary table s rfl rfl fun d y => rfl
  | and => exact exec_binary table s rfl rfl fun d y => UInt16.and_comm d y
  | or => exact exec_binary table s rfl rfl fun d y => UInt16.or_comm d y
  | neg => exact exec_unary table s rfl rfl fun d y => rfl
  | not => exact exec_unary table s rfl rfl fun d y => rfl
  | eq | gt | lt => cases h

/-- A comparison tests the difference of its operands. -/
theorem operate_comparison (h : op.isComparison) :
    ∃ condition, operate unit op position = comparison unit op condition position ∧
      condition ≠ .always ∧ op.isUnary = false ∧
      ∀ left right, op.value left right = Operation.truth (condition.holds (left - right)) := by
  cases op with
  | eq =>
    exact ⟨.ifZero, rfl, by decide, rfl, fun left right => by rw [Jump.holds_ifZero]; rfl⟩
  | gt =>
    exact ⟨.ifPositive, rfl, by decide, rfl, fun left right => by rw [Jump.holds_ifPositive]; rfl⟩
  | lt =>
    exact ⟨.ifNegative, rfl, by decide, rfl, fun left right => by rw [Jump.holds_ifNegative]; rfl⟩
  | _ => cases h

end Operations

theorem exec_difference (table : SymbolTable) (s : Core) :
    exec table difference s = (shared.pop? s.ram).bind fun r =>
      (r.2.load? (r.2.read 0 - 1)).map fun left => ⟨r.2, r.2.read 0 - 1, left - r.1⟩ := by
  rw [difference, exec_popD]
  refine Option.bind_congr fun r hr => ?_
  have htop : r.2.read 0 = s.ram.read 0 - 1 := by
    rw [Memory.pop?_snd hr, Memory.read_write_self (by decide)]
  rw [exec_setA _ _ _ rfl, exec_loadD _ _ _ rfl, htop]
  exact Option.map_eq_bind.symm

theorem exec_answer (table : SymbolTable) (s : Core) {comp : Comp} (hr : comp.readsMemory = false) :
    (exec table (answer comp) s).map Core.ram =
      s.ram.store? (s.ram.read 0 - 1) (comp.eval s.d (s.ram.read 0 - 1)) := by
  rw [answer, exec_stackPointer, exec_loadA _ _ _ rfl, Memory.load?_zero, Option.bind_some,
    exec_store _ _ _ hr, Option.map_bind]
  exact Option.bind_fun_some _

namespace Machine

theorem arrivesOver_answer {P : Word → Prop} {table : SymbolTable} {m : Machine} {comp : Comp}
    (hrun : m.status = .running) (hcode : CodeAt m.rom table m.pc (answer comp))
    (hplace : ∀ j, j < 3 → P (m.pc + j.toUInt16)) (hr : comp.readsMemory = false)
    (htop : (m.ram.read 0 - 1).toNat < ramSize) :
    m.ArrivesOver P (m.pc + 3)
      (m.ram.write (m.ram.read 0 - 1) (comp.eval m.d (m.ram.read 0 - 1))) .running := by
  have hfalls : ∀ i ∈ answer comp, i.falls := List.all_eq_true.1 rfl
  refine arrivesOver_exec hrun hcode hfalls hplace ?_
  rw [exec_answer table m.core hr]
  exact Memory.store?_of_lt _ htop

/-- A comparison stores the word for its truth value in the place of the left operand. If it holds, the
machine goes on behind the comparison, and if not, where the end label leads to. -/
theorem arrivesOver_comparison {P : Word → Prop} {table : SymbolTable} {unit : String}
    {op : Operation} {condition : Jump} {position : Nat} {m : Machine} {popped : Memory}
    {left right t e : Word} (hrun : m.status = .running)
    (hcode : CodeAt m.rom table m.pc (comparison unit op condition position))
    (hplace : ∀ j, j < 15 → P (m.pc + j.toUInt16))
    (htrue : table.address? (trueLabel unit op position) = some t) (ht : t &&& 0x7FFF = m.pc + 12)
    (hend : table.address? (endLabel unit op position) = some e) (he : e &&& 0x7FFF ≠ m.pc + 10)
    (hcondition : condition ≠ .always) (hpop : shared.pop? m.ram = some (right, popped))
    (hload : popped.load? (popped.read 0 - 1) = some left) :
    m.ArrivesOver P (if condition.holds (left - right) then m.pc + 15 else e &&& 0x7FFF)
      (popped.write (popped.read 0 - 1) (Operation.truth (condition.holds (left - right))))
      .running := by
  have htop : (popped.read 0 - 1).toNat < ramSize := by
    by_cases hlt : (popped.read 0 - 1).toNat < ramSize
    · exact hlt
    · simp [Memory.load?, hlt] at hload
  have hplaceFrom (k n : Nat) (hk : k + n ≤ 15) (j : Nat) (hj : j < n) :
      P (m.pc + k.toUInt16 + j.toUInt16) := by
    have hat := hplace (k + j) (by omega)
    rw [Nat.toUInt16_eq, UInt16.ofNat_add, ← UInt16.add_assoc] at hat
    exact hat
  rw [comparison_eq] at hcode
  obtain ⟨hdifference, hjump⟩ := codeAt_append.1 hcode
  have hzero := (codeAt_append.1 hjump.2.2).1
  have hgoto := (codeAt_append.1 hjump.2.2).2
  have hone := (codeAt_append.1 hgoto.2.2).1
  have hexec : exec table difference m.core = some ⟨popped, popped.read 0 - 1, left - right⟩ := by
    rw [exec_difference]
    change (shared.pop? m.ram).bind _ = _
    rw [hpop, Option.bind_some, hload]
    rfl
  have hbranch : m.ArrivesOver P
      (if condition.holds (left - right) then m.pc + 12 else m.pc + 7) popped .running := by
    have hstays := stays_exec (P := P) hrun hdifference (by decide)
      (fun j hj => hplace j (Nat.lt_trans hj (by decide))) hexec
    have hfive : P (m.pc + 5) := by simpa using hplaceFrom 5 1 (by decide) 0 (by decide)
    obtain ⟨u, hstays', hu⟩ := arrivesOver_branch (P := P) (m := m.past _ _) hrun hcondition
      hjump hfive
      (hplaceFrom 5 2 (by decide) 1 (by decide)) htrue
    have hpc : m.pc + 5 + 2 = m.pc + 7 := UInt16.add_assoc m.pc 5 2
    refine ⟨u, hstays.trans hstays', ?_⟩
    rw [← ht, ← hpc]
    exact hu
  cases hholds : condition.holds (left - right) with
  | true =>
    rw [hholds, if_pos rfl] at hbranch
    refine hbranch.followed fun u hrom hpc hram hstatus => ?_
    have hlast : m.pc + 5 + 1 + 1 + 3 + 1 + 1 = m.pc + 12 := by grind
    have hanswer := arrivesOver_answer (P := P) hstatus
      (by rw [hrom, hpc, ← hlast]; exact hone)
      (fun j hj => by rw [hpc]; exact hplaceFrom 12 3 (by decide) j hj) rfl (by rw [hram]; exact htop)
    rw [hpc, hram, UInt16.add_assoc] at hanswer
    exact hanswer
  | false =>
    rw [hholds, if_neg Bool.false_ne_true] at hbranch
    refine hbranch.followed fun u hrom hpc hram hstatus => ?_
    have hnext : m.pc + 5 + 1 + 1 = m.pc + 7 := by grind
    have hanswer := arrivesOver_answer (P := P) hstatus
      (by rw [hrom, hpc, ← hnext]; exact hzero)
      (fun j hj => by rw [hpc]; exact hplaceFrom 7 3 (by decide) j hj) rfl (by rw [hram]; exact htop)
    refine hanswer.followed fun v hrom' hpc' hram' hstatus' => ?_
    have hat : m.pc + 7 + 3 = m.pc + 10 := UInt16.add_assoc m.pc 7 3
    rw [hpc, hat] at hpc'
    have hgoto' := arrivesOver_goto (P := P) hstatus'
      (by rw [hrom', hrom, hpc', ← hat, ← hnext]; exact hgoto)
      (by rw [hpc']; simpa using hplaceFrom 10 1 (by decide) 0 (by decide))
      (by rw [hpc']; exact hplaceFrom 10 2 (by decide) 1 (by decide)) hend
    rw [hpc', if_neg he, hram', hram] at hgoto'
    exact hgoto'

/-- A comparison ends at its end label with the word for its truth value in the place of the left
operand. -/
theorem arrives_comparison {table : SymbolTable} {unit : String} {op : Operation}
    {condition : Jump} {position : Nat} {m : Machine} {mem : Memory} {t e : Word}
    (hrun : m.status = .running)
    (hcode : CodeAt m.rom table m.pc (comparison unit op condition position))
    (htrue : table.address? (trueLabel unit op position) = some t) (ht : t &&& 0x7FFF = m.pc + 12)
    (hend : table.address? (endLabel unit op position) = some e) (he : e &&& 0x7FFF = m.pc + 15)
    (hop : op.isUnary = false) (hcondition : condition ≠ .always)
    (hvalue : ∀ left right, op.value left right = Operation.truth (condition.holds (left - right)))
    (hoperate : shared.operate? m.ram op = some mem) :
    m.Arrives (m.pc + 15) mem .running := by
  rw [operate?, if_neg (by simp [hop])] at hoperate
  obtain ⟨⟨right, popped⟩, hpop, hoperate⟩ := Option.bind_eq_some_iff.1 hoperate
  obtain ⟨left, hload, heq⟩ := Option.bind_eq_some_iff.1 hoperate
  cases heq
  have hne : e &&& 0x7FFF ≠ m.pc + 10 := by grind
  have harrives := arrivesOver_comparison (P := fun _ => True) hrun hcode (fun _ _ => trivial)
    htrue ht hend hne hcondition hpop hload
  rw [he, ite_self, ← hvalue] at harrives
  exact harrives.arrives

end Machine

end HackStack
