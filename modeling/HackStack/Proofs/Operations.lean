import HackStack.Proofs.Comparisons
import HackStack.Proofs.Frames
import HackStack.Proofs.Generated
import HackStack.Proofs.Passages

set_option autoImplicit false

namespace HackStack

open Assembly Lowering Access

def Operation.cell (op : Operation) (sp : Word) : Word := if op.isUnary then sp - 1 else sp - 2

theorem Operation.value_unary {op : Operation} (h : op.isUnary) (left left' right : Word) :
    op.value left right = op.value left' right := by
  cases op with
  | neg | not => rfl
  | _ => cases h

theorem Operation.truth_eq_zero_iff (b : Bool) : Operation.truth b = 0 ↔ b = false := by
  cases b <;> decide

namespace Memory

variable (mem : Memory) {sp : Word} (hlow : 3 ≤ sp.toNat) (hhigh : sp.toNat ≤ ramSize)
include hlow hhigh

theorem load?_left : (mem.write 0 (sp - 1)).read 0 - 1 = sp - 2 ∧
    (mem.write 0 (sp - 1)).load? ((mem.write 0 (sp - 1)).read 0 - 1) = some (mem.read (sp - 2)) := by
  have hleft : (sp - 2).toNat = sp.toNat - 2 :=
    UInt16.toNat_sub_of_le sp 2 (UInt16.le_iff_toNat_le.2 (Nat.le_of_succ_le hlow))
  have hne : 0 ≠ sp - 2 := Word.ne_of_lt (n := 1) (by decide) (by omega)
  have htop : (mem.write 0 (sp - 1)).read 0 - 1 = sp - 2 := by
    rw [read_write_self (by decide)]
    grind
  refine ⟨htop, ?_⟩
  rw [htop, load?_of_lt (by omega), read_write_ne hne]

variable {mem} (hsp : mem.read 0 = sp)
include hsp

theorem operate?_spec (op : Operation) :
    ∃ mem', shared.operate? mem op = some mem' ∧
      ((mem'.read 0).toNat : Int) = sp.toNat + op.stackEffect ∧
      mem'.read (op.cell sp) = op.value (mem.read (sp - 2)) (mem.read (sp - 1)) ∧
      ∀ a, a ≠ 0 → a ≠ op.cell sp → mem'.read a = mem.read a := by
  have hright := Word.toNat_pred (show 1 ≤ sp.toNat by omega)
  cases hop : op.isUnary with
  | true =>
    have hne : sp - 1 ≠ 0 := (Word.ne_of_lt (n := 1) (by decide) (by omega)).symm
    have hvalue := Operation.value_unary hop 0 (mem.read (sp - 2))
    refine ⟨mem.write (sp - 1) (op.value 0 (mem.read (sp - 1))), ?_, ?_, ?_, ?_⟩
    · rw [operate?, if_pos hop, hsp]
      change (shared.load? mem (sp - 1)).bind _ = _
      rw [shared_load?, load?_of_lt (by omega)]
      rfl
    · rw [read_write_ne hne, hsp, Operation.stackEffect, if_pos hop, Int.add_zero]
    · rw [Operation.cell, if_pos hop, read_write_self (by omega), hvalue]
    · intro a _ ha
      rw [Operation.cell, if_pos hop] at ha
      exact read_write_ne ha.symm
  | false =>
    obtain ⟨htop, hload⟩ := load?_left mem hlow hhigh
    have hleft : (sp - 2).toNat = sp.toNat - 2 :=
      UInt16.toNat_sub_of_le sp 2 (UInt16.le_iff_toNat_le.2 (Nat.le_of_succ_le hlow))
    have hne : sp - 2 ≠ 0 := (Word.ne_of_lt (n := 1) (by decide) (by omega)).symm
    have hcell : op.cell sp = sp - 2 := if_neg (by rw [hop]; exact Bool.false_ne_true)
    rw [hcell]
    refine ⟨(mem.write 0 (sp - 1)).write (sp - 2)
      (op.value (mem.read (sp - 2)) (mem.read (sp - 1))), ?_, ?_, ?_, ?_⟩
    · rw [operate?, if_neg (by rw [hop]; exact Bool.false_ne_true),
        pop?_spec hsp (by omega) hhigh]
      change (shared.load? _ ((mem.write 0 (sp - 1)).read 0 - 1)).bind _ = _
      rw [shared_load?, hload, htop]
      rfl
    · rw [read_write_ne hne, read_write_self (by decide), hright, Operation.stackEffect, hop]
      rw [if_neg Bool.false_ne_true]
      omega
    · exact read_write_self (by omega)
    · intro a hzero ha
      rw [read_write_ne ha.symm, read_write_ne hzero.symm]

end Memory

namespace Machine

variable {unit : String} {op : Operation} {position : Nat} {p : Program} {m : Machine}

/-- A comparison is left at its end if it holds. If it does not, it is left where the jump to its end
label goes, and that is the end too if an address instruction can hold it. -/
theorem AtFragment.leaves_comparison {condition : Jump} {popped : Memory} {left right : Word}
    (h : m.AtFragment p (comparison unit op condition position)) (hcondition : condition ≠ .always)
    (hpop : shared.pop? m.ram = some (right, popped))
    (hload : popped.load? (popped.read 0 - 1) = some left) :
    ∃ u, m.Leaves (comparison unit op condition position) u ∧ u.status = .running ∧ u.rom = m.rom ∧
      u.ram = popped.write (popped.read 0 - 1)
        (Operation.truth (condition.holds (left - right))) ∧
      u.pc.toNat = if condition.holds (left - right) = false ∧ m.pc.toNat + 15 = 32768 then 0
        else m.pc.toNat + 15 := by
  have hfits : m.pc.toNat + 15 ≤ 32768 := h.fits
  have htrue := h.label_address (show comparison unit op condition position = (difference ++
    (.symbol (trueLabel unit op position) :: .branch .d condition :: (answer .zero ++
      [.symbol (endLabel unit op position), .goto]))) ++ .label (trueLabel unit op position) ::
    (answer .minusOne ++ [.label (endLabel unit op position)]) from rfl)
  have hend := h.label_address (show comparison unit op condition position = (difference ++
    (.symbol (trueLabel unit op position) :: .branch .d condition :: (answer .zero ++
      (.symbol (endLabel unit op position) :: .goto :: .label (trueLabel unit op position) ::
        answer .minusOne)))) ++ [.label (endLabel unit op position)] from rfl)
  have hten : (m.pc + 10).toNat = m.pc.toNat + 10 := toNat_add_offset (j := 10) hfits (by decide)
  have htwelve : (m.pc + 12).toNat = m.pc.toNat + 12 := toNat_add_offset (j := 12) hfits (by decide)
  have hbehind : (m.pc + 15).toNat = m.pc.toNat + 15 := toNat_add_offset (j := 15) hfits (by decide)
  have htarget : ((m.pc + 15) &&& 0x7FFF).toNat = (m.pc.toNat + 15) % 32768 := by
    rw [Word.toNat_and_literal, hbehind]
  have hreach : (m.pc + 12).toNat ≤ Word.maxLiteral := by
    have hmax : Word.maxLiteral = 32767 := rfl
    omega
  have hother : (m.pc + 15) &&& 0x7FFF ≠ m.pc + 10 := by
    intro heq
    rw [heq] at htarget
    omega
  obtain ⟨u, hstays, hrom, hpc, hram, hrun⟩ := arrivesOver_comparison h.running h.codeAt
    (fun _ => inside_offset hfits) htrue (Word.literal_and hreach) hend hother hcondition hpop hload
  have hplace : u.pc.toNat = if condition.holds (left - right) = false ∧ m.pc.toNat + 15 = 32768
      then 0 else m.pc.toNat + 15 := by
    rw [hpc]
    cases condition.holds (left - right) with
    | true => simpa using hbehind
    | false =>
      rw [if_neg Bool.false_ne_true]
      refine htarget.trans ?_
      by_cases hfull : m.pc.toNat + 15 = 32768
      · rw [if_pos ⟨rfl, hfull⟩]
        omega
      · rw [if_neg fun hboth => hfull hboth.2]
        omega
  refine ⟨u, ⟨hstays, ?_⟩, hrun, hrom, hram, hplace⟩
  -- Neither the start of the program nor the end of the comparison is inside the comparison.
  change ¬ Inside m.pc 15 u.pc
  rintro ⟨hge, hlt⟩
  split at hplace
  next hfull =>
    have hsize := hfull.2
    omega
  next => omega

/-- The machine leaves the code of an operation with the effect of the operation. -/
theorem AtFragment.leaves_operate {sp : Word} {mem : Memory}
    (h : m.AtFragment p (operate unit op position)) (hsp : m.ram.read 0 = sp)
    (hlow : 3 ≤ sp.toNat) (hhigh : sp.toNat ≤ ramSize) (hmem : shared.operate? m.ram op = some mem) :
    ∃ u, m.Leaves (operate unit op position) u ∧ u.status = .running ∧ u.rom = m.rom ∧
      u.ram = mem ∧
      u.pc.toNat =
        if op.isComparison ∧ op.value (m.ram.read (sp - 2)) (m.ram.read (sp - 1)) = 0 ∧
          m.pc.toNat + codeSize (operate unit op position) = 32768 then 0
        else m.pc.toNat + codeSize (operate unit op position) := by
  cases hcompares : op.isComparison with
  | false =>
    obtain ⟨u, hleaves, hbehind, hram⟩ := h.leaves_exec (operate_falls unit position hcompares)
      ((exec_operate unit position p.symbols m.core hcompares).trans hmem)
    refine ⟨u, hleaves, hbehind.running, hbehind.rom, hram, ?_⟩
    rw [if_neg fun hboth => Bool.false_ne_true hboth.1]
    exact hbehind.pc
  | true =>
    obtain ⟨condition, hcode, hcondition, hop, hvalue⟩ := operate_comparison unit position hcompares
    obtain ⟨htop, hload⟩ := Memory.load?_left m.ram hlow hhigh
    have hpop := Memory.pop?_spec hsp (Nat.le_of_succ_le hlow) hhigh
    rw [hcode] at h ⊢
    obtain ⟨u, hleaves, hrun, hrom, hram, hpc⟩ := h.leaves_comparison hcondition hpop hload
    refine ⟨u, hleaves, hrun, hrom, ?_, ?_⟩
    · rw [operate?, if_neg (by rw [hop]; exact Bool.false_ne_true), hpop] at hmem
      change (shared.load? _ ((m.ram.write 0 (sp - 1)).read 0 - 1)).bind _ = _ at hmem
      rw [shared_load?, hload] at hmem
      cases hmem
      rw [hram, hvalue, htop]
    · rw [hpc, hvalue]
      simp only [Operation.truth_eq_zero_iff, true_and]
      rfl

/-- The code of an operation leaves the result in the place of the operands, moves the stack pointer by
the stack effect and changes nothing else. The machine then stands behind the code, unless the
operation is a comparison that does not hold at the end of a full store: it is then at the start of the
program. -/
theorem operation_behind_iff {sp left right : Word}
    (h : m.AtFragment p (operate unit op position)) (hsp : m.ram.read 0 = sp)
    (hlow : 3 ≤ sp.toNat) (hhigh : sp.toNat ≤ 32768) (hleft : m.ram.read (sp - 2) = left)
    (hright : m.ram.read (sp - 1) = right) :
    ∃ u, (∀ v, m.Leaves (operate unit op position) v ↔ v = u) ∧
      (m.Behind (operate unit op position) u ↔
        ¬ (op.isComparison ∧ op.value left right = 0 ∧
          m.pc.toNat + codeSize (operate unit op position) = 32768)) ∧
      (¬ m.Behind (operate unit op position) u →
        u.status = .running ∧ u.rom = m.rom ∧ u.pc = 0) ∧
      ((u.ram.read 0).toNat : Int) = sp.toNat + op.stackEffect ∧
      u.ram.read (op.cell sp) = op.value left right ∧
      ∀ a, a ≠ 0 → a ≠ op.cell sp → u.ram.read a = m.ram.read a := by
  obtain ⟨mem, hmem, hpointer, hresult, hothers⟩ := Memory.operate?_spec hlow hhigh hsp op
  obtain ⟨u, hleaves, hrun, hrom, rfl, hpc⟩ := h.leaves_operate hsp hlow hhigh hmem
  rw [hleft, hright] at hresult hpc
  have hsize : 0 < codeSize (operate unit op position) := by
    cases op <;> exact Nat.succ_pos _
  refine ⟨u, fun v => ⟨fun hv => hv.unique hleaves, ?_⟩, ⟨?_, ?_⟩, ?_, hpointer, hresult, hothers⟩
  · rintro rfl
    exact hleaves
  · intro hbehind hedge
    have hend := hbehind.pc
    rw [if_pos hedge] at hpc
    omega
  · intro hinner
    rw [if_neg hinner] at hpc
    exact ⟨hrun, hrom, hpc⟩
  · intro hout
    refine ⟨hrun, hrom, UInt16.toNat_inj.1 ?_⟩
    split at hpc
    next => exact hpc
    next => exact absurd ⟨hrun, hrom, hpc⟩ hout

section Sample

def zeroPushes (n : Nat) : List Statement := (List.replicate n (push "Main" .constant 0)).flatten

theorem codeSize_zeroPushes (n : Nat) : codeSize (zeroPushes n) = 7 * n := by
  induction n with
  | zero => rfl
  | succ n ih =>
    have hcode : zeroPushes (n + 1) = push "Main" .constant 0 ++ zeroPushes n := rfl
    have hpush : codeSize (push "Main" .constant 0) = 7 := rfl
    rw [hcode, codeSize_append, ih, hpush]
    omega

/-- A program of 4679 pushes and a comparison fills the store. -/
theorem exists_full_comparison : ∃ p, ∀ m : Machine, m.status = .running → m.rom = p.words →
    m.pc.toNat = 32753 → m.AtFragment p (operate "Main" .gt 4679) := by
  have hunit : isSymbol "Main".toList := by decide
  have hsize : codeSize (operate "Main" .gt 4679) = 15 := rfl
  have hwritable : ∀ i ∈ zeroPushes 4679 ++ operate "Main" .gt 4679, i.Writable := by
    refine List.forall_mem_append.2 ⟨fun i hi => ?_, comparison_writable hunit .gt .ifPositive 4679⟩
    obtain ⟨code, hcode, hi⟩ := List.mem_flatten.1 hi
    rw [List.eq_of_mem_replicate hcode] at hi
    exact push_writable hunit (by decide) i hi
  have hbind : Bindable (zeroPushes 4679 ++ operate "Main" .gt 4679) := by
    rw [Bindable, labelNames_append, zeroPushes, labelNames_zeros]
    decide
  obtain ⟨p, hp⟩ := exists_atFragment hwritable hbind (by
    rw [codeSize_append, codeSize_zeroPushes, hsize]
    decide)
  refine ⟨p, fun m hrun hrom hpc => hp (zeroPushes 4679) _ [] m ?_ hrun hrom ?_⟩
  · rw [List.append_nil]
  · rw [hpc, codeSize_zeroPushes]

/-- A comparison that does not hold, as the last command of a program that fills the store, starts the
program again. -/
theorem operation_behind_full : ∃ (p : Program) (m u : Machine),
    m.AtFragment p (operate "Main" .gt 4679) ∧ m.Leaves (operate "Main" .gt 4679) u ∧
    ¬ m.Behind (operate "Main" .gt 4679) u ∧ u.pc = 0 ∧ (u.ram.read 0).toNat = 257 ∧
    u.ram.read 256 = 0 := by
  obtain ⟨p, hp⟩ := exists_full_comparison
  have h := hp ⟨p.words, Memory.zero.write 0 258, 0, 0, 32753, .running, 0⟩ rfl rfl rfl
  have hsp : (Memory.zero.write 0 258).read 0 = 258 := Memory.read_write_self (by decide)
  have hoperand (a : Word) (ha : 0 ≠ a) : (Memory.zero.write 0 258).read a = 0 := by
    rw [Memory.read_write_ne ha, Memory.read_zero]
  obtain ⟨u, hleaves, hiff, hedge, hpointer, hresult, -⟩ := operation_behind_iff h hsp (by decide)
    (by decide) (hoperand _ (by decide)) (hoperand _ (by decide))
  have hout : ¬ _ := mt hiff.1 (not_not_intro ⟨rfl, rfl, rfl⟩)
  have hheight : ((u.ram.read 0).toNat : Int) = 257 := hpointer
  exact ⟨p, _, u, h, (hleaves u).2 rfl, hout, (hedge hout).2.2, by omega, hresult⟩

end Sample

end Machine

end HackStack
