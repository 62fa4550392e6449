import HackStack.Proofs.Comparisons
import HackStack.Proofs.Frames
import HackStack.Proofs.Hygiene
import HackStack.Proofs.Layout
import HackStack.Proofs.Scratch

set_option autoImplicit false

/-! # Simulation

The computer follows the stack machine through every run: for each command that the stack machine
performs there are steps that take the computer to the code of the next command, with the same memory.
A jump to its own address stops the computer; the stack machine is then in a loop that changes
nothing. -/

namespace HackStack

open Assembly Statement Lowering Access

/-- A machine with a new program keeps its memory and starts at address 0. -/
theorem Machine.load_eq_ok {old m : Machine} {words : Array Word} (h : old.load words = .ok m) :
    m.rom = words ∧ m.ram = old.ram ∧ m.pc = 0 ∧ m.status = .running := by
  unfold Machine.load at h
  split at h
  next => cases h
  next =>
    cases h
    exact ⟨rfl, rfl, rfl, rfl⟩

namespace StackMachine.Code

variable {code : Code}

/-- A state from which the stack machine comes to a jump to the same address and on the way meets no
command that has code. -/
def Inert (code : Code) (r : State) : Prop :=
  ∃ k s name j, code.sites[k]? = some s ∧ s.command = .goto name ∧ code.target? name = some j ∧
    r.position ≤ k ∧ code.offset r.position = code.offset k ∧ code.offset j = code.offset k

theorem command_of_size {s : Site} (h : codeSize s.code = 0) :
    (∃ name, s.command = .label name) ∨
      ∃ name locals, s.command = .function name locals ∧ locals.toNat = 0 := by
  obtain ⟨unit, position, ⟨c, location⟩⟩ := s
  cases c with
  | label name => exact .inl ⟨name, rfl⟩
  | function name locals =>
    refine .inr ⟨name, locals, rfl, ?_⟩
    cases hlocals : locals.toNat with
    | zero => rfl
    | succ n =>
      change codeSize ([.label name] ++
        (List.replicate locals.toNat (push unit .constant 0)).flatten) = 0 at h
      have hpush : codeSize (push unit .constant 0) = 7 := rfl
      rw [hlocals, List.replicate_succ, List.flatten_cons, codeSize_append, codeSize_append] at h
      omega
  | push segment index => cases segment <;> cases h
  | pop segment index => cases segment <;> cases h
  | operate op => cases op <;> cases h
  | goto | ifGoto | call | ret => cases h

/-- The target of a jump to the same address is not behind the jump. -/
theorem le_of_goto {i j : Nat} {s : Site} {name : String} (hs : code.sites[i]? = some s)
    (hgoto : s.command = .goto name) (hoffset : code.offset j = code.offset i) : j ≤ i := by
  have hsize : codeSize s.code = 2 := by
    rw [Site.code, hgoto]
    rfl
  refine Nat.le_of_not_lt fun hlt => ?_
  have hgap := offset_add_le hs hlt
  omega

/-- A state that is inert stays inert, and nothing changes. -/
theorem Inert.step {access : Access} {r r' : State} (h : code.Inert r)
    (hstep : code.step? access r = some r') :
    code.Inert r' ∧ r'.ram = r.ram ∧ code.offset r'.position = code.offset r.position := by
  obtain ⟨k, s, name, j, hs, hgoto, htarget, hle, hk, hj⟩ := h
  obtain ⟨t, ht, hperform⟩ := Option.bind_eq_some_iff.1 hstep
  -- Either the next command is the jump itself, or it stands before the jump and has no code.
  obtain rfl | hlt := Nat.eq_or_lt_of_le hle
  · obtain rfl : t = s := Option.some.inj (ht.symm.trans hs)
    simp only [perform?, hgoto, htarget, Option.map_some, Option.some.injEq] at hperform
    subst hperform
    exact ⟨⟨_, t, name, j, hs, hgoto, htarget, le_of_goto hs hgoto hj, hj, hj⟩, rfl, hj⟩
  · have hsucc := offset_succ ht
    have hgap := offset_add_le ht hlt
    have hsize : codeSize t.code = 0 := by omega
    have hnext : r' = ⟨r.position + 1, r.ram⟩ := by
      obtain ⟨label, hlabel⟩ | ⟨f, locals, hfunction, hlocals⟩ := command_of_size hsize
      · simp only [perform?, hlabel, Option.map_some, Option.some.injEq] at hperform
        exact hperform.symm
      · simp only [perform?, hfunction, hlocals, zeros?, Option.map_some,
          Option.some.injEq] at hperform
        exact hperform.symm
    subst hnext
    refine ⟨⟨k, s, name, j, hs, hgoto, htarget, hlt, ?_, hj⟩, rfl, ?_⟩ <;> simp only <;> omega

/-- A machine that stands at the code of the next command, with the same memory. It has stopped only
where the stack machine does nothing more. -/
structure Follows (code : Code) (p : Program) (r : State) (m : Machine) : Prop where
  rom : m.rom = p.words
  pc : m.pc = code.romAddress r.position
  ram : m.ram = r.ram
  status : m.status = .running ∨ m.status = .halted ∧ code.Inert r

def Leads (code : Code) (p : Program) (m : Machine) (r : State) : Prop :=
  ∃ u, m.Reaches u ∧ code.Follows p r u

theorem leads_of_arrives {p : Program} {m : Machine} {r : State} {status : Status}
    (hrom : m.rom = p.words) (h : m.Arrives (code.romAddress r.position) r.ram status)
    (hstatus : status = .running ∨ status = .halted ∧ code.Inert r) : code.Leads p m r := by
  obtain ⟨u, hreach, hrom', hpc, hram, rfl⟩ := h
  exact ⟨u, hreach, hrom'.trans hrom, hpc, hram, hstatus⟩

theorem Loaded.literal_address {p : Program} (h : code.Loaded p) {name : String} {a : Word}
    (ha : code.symbols.address? name = some a) : a &&& 0x7FFF = a :=
  Word.literal_and (Nat.le_of_lt_succ (h.address?_lt ha))

theorem Loaded.static_eq {p : Program} (h : code.Loaded p) (unit : String) :
    staticCell? code.symbols unit = fun index => code.symbols.address? (staticSymbol unit index) := by
  funext index
  unfold staticCell?
  cases ha : code.symbols.address? (staticSymbol unit index) with
  | none => rfl
  | some a => exact congrArg some (h.literal_address ha)

section Site

variable {p : Program} (h : code.Loaded p) {i : Nat} {s : Site} (hs : code.sites[i]? = some s)
variable {m : Machine} (hrun : m.status = .running) (hrom : m.rom = p.words)
variable (hpc : m.pc = code.romAddress i)

include h hs hrom hpc in
theorem codeAt_of_code {statements : List Statement} (hcode : s.code = statements) :
    CodeAt m.rom code.symbols m.pc statements := by
  rw [hrom, hpc, ← hcode]
  exact h.codeAt_site hs

include h hs hrun hrom hpc

theorem leads_exec {mem : Memory} (hfalls : ∀ i ∈ s.code, i.falls)
    (hmem : (exec code.symbols s.code m.core).map Core.ram = some mem) :
    code.Leads p m ⟨i + 1, mem⟩ := by
  have harrives := Machine.arrives_exec hrun (codeAt_of_code h hs hrom hpc rfl) hfalls hmem
  rw [hpc, ← romAddress_succ hs] at harrives
  exact leads_of_arrives hrom harrives (.inl rfl)

theorem leads_comparison {op : Operation} {condition : Jump} {mem : Memory}
    (hcode : s.code = comparison s.unit op condition s.position) (hop : op.isUnary = false)
    (hcondition : condition ≠ .always)
    (hvalue : ∀ left right, op.value left right = Operation.truth (condition.holds (left - right)))
    (hmem : shared.operate? m.ram op = some mem) : code.Leads p m ⟨i + 1, mem⟩ := by
  have hplaced := codeAt_of_code h hs hrom hpc hcode
  have htrue := h.address?_label hs (show s.code = (difference ++
    (.symbol (trueLabel s.unit op s.position) :: branch .d condition :: (answer .zero ++
      [.symbol (endLabel s.unit op s.position), goto]))) ++
    .label (trueLabel s.unit op s.position) :: (answer .minusOne ++
      [.label (endLabel s.unit op s.position)]) from hcode)
  have hend := h.address?_label hs (show s.code = (difference ++
    (.symbol (trueLabel s.unit op s.position) :: branch .d condition :: (answer .zero ++
      (.symbol (endLabel s.unit op s.position) :: goto :: .label (trueLabel s.unit op s.position) ::
        answer .minusOne)))) ++ [.label (endLabel s.unit op s.position)] from hcode)
  have harrives := Machine.arrives_comparison hrun hplaced htrue
    (by rw [h.literal_address htrue, hpc]; rfl) hend (by rw [h.literal_address hend, hpc]; rfl) hop
    hcondition hvalue hmem
  have hnext : m.pc + 15 = code.romAddress (i + 1) := by
    rw [romAddress_succ hs, hcode, hpc]
    rfl
  rw [hnext] at harrives
  exact leads_of_arrives hrom harrives (.inl rfl)

theorem leads_operate {op : Operation} {mem : Memory} (hcommand : s.command = .operate op)
    (hmem : shared.operate? m.ram op = some mem) : code.Leads p m ⟨i + 1, mem⟩ := by
  have hcode : s.code = operate s.unit op s.position := by rw [Site.code, hcommand]; rfl
  by_cases hcompares : op.isComparison
  · obtain ⟨condition, hcomparison, hcondition, hop, hvalue⟩ :=
      operate_comparison s.unit s.position hcompares
    exact leads_comparison h hs hrun hrom hpc (hcode.trans hcomparison) hop hcondition hvalue hmem
  · rw [Bool.not_eq_true] at hcompares
    refine leads_exec h hs hrun hrom hpc (hcode ▸ operate_falls s.unit s.position hcompares) ?_
    rw [hcode, exec_operate _ _ _ _ hcompares]
    exact hmem

theorem leads_function {name : String} {locals : Word} {mem : Memory}
    (hcommand : s.command = .function name locals)
    (hmem : shared.zeros? locals.toNat m.ram = some mem) : code.Leads p m ⟨i + 1, mem⟩ := by
  have hcode : s.code = .label name ::
      (List.replicate locals.toNat (push s.unit .constant 0)).flatten := by
    rw [Site.code, hcommand]
    rfl
  have hpush : ∀ i ∈ push s.unit .constant 0, i.falls := List.all_eq_true.1 rfl
  refine leads_exec h hs hrun hrom hpc ?_ ?_
  · rw [hcode, List.forall_mem_cons]
    refine ⟨rfl, fun i hi => ?_⟩
    obtain ⟨xs, hxs, hi⟩ := List.mem_flatten.1 hi
    exact hpush i (List.eq_of_mem_replicate hxs ▸ hi)
  · rw [hcode]
    exact (exec_zeros _ _ s.unit locals.toNat).trans hmem

/-- A jump to its own address stops the machine. -/
theorem leads_goto {name : String} {j : Nat} (hcommand : s.command = .goto name)
    (htarget : code.target? name = some j) : code.Leads p m ⟨j, m.ram⟩ := by
  have hcode : s.code = [.symbol name, goto] := by
    rw [Site.code, hcommand]
    rfl
  have hplaced := codeAt_of_code h hs hrom hpc hcode
  have harrives := Machine.arrives_goto hrun hplaced (h.address?_target htarget)
  rw [h.romAddress_and, hpc] at harrives
  refine leads_of_arrives (r := ⟨j, m.ram⟩) hrom harrives ?_
  split
  next heq =>
    have hoffset : code.offset j = code.offset i := by
      rw [← h.toNat_romAddress, ← h.toNat_romAddress, heq]
    exact .inr ⟨rfl, i, s, name, j, hs, hcommand, htarget, le_of_goto hs hcommand hoffset, hoffset,
      hoffset⟩
  next => exact .inl rfl

theorem leads_ifGoto {name : String} {value : Word} {popped : Memory} {r' : State}
    (hcommand : s.command = .ifGoto name) (hpop : shared.pop? m.ram = some (value, popped))
    (hnext : (if value = 0 then some ⟨i + 1, popped⟩
      else (code.target? name).map fun j => State.mk j popped) = some r') :
    code.Leads p m r' := by
  have hcode : s.code = popD ++ [.symbol name, branch .d .ifNonzero] := by
    rw [Site.code, hcommand]
    rfl
  obtain ⟨hpopD, hjump⟩ := codeAt_append.1 (codeAt_of_code h hs hrom hpc hcode)
  -- The name has an address even where the jump is not taken, since its word was written.
  obtain ⟨a, ha⟩ : ∃ a, code.symbols.address? name = some a := by
    obtain ⟨w, hw, -⟩ := hjump.1
    exact ⟨_, (Option.map_eq_some_iff.1 hw).choose_spec.1⟩
  have hexec : exec code.symbols popD m.core = some ⟨popped, m.ram.read 0 - 1, value⟩ := by
    have hpopped := exec_popD code.symbols [] m.core
    rw [List.append_nil] at hpopped
    rw [hpopped]
    change (shared.pop? m.ram).bind _ = _
    rw [hpop]
    rfl
  have hreach := Machine.reaches_exec hrun hpopD (List.all_eq_true.1 rfl) hexec
  obtain ⟨u, hreach', hu⟩ := Machine.arrives_branch (m := m.past _ _) hrun (by decide) hjump ha
  have harrives : m.Arrives (if Jump.ifNonzero.holds value then a &&& 0x7FFF else m.pc + 3 + 2) popped
      .running := ⟨u, hreach.trans hreach', hu⟩
  rw [Jump.holds_ifNonzero] at harrives
  by_cases hzero : value = 0
  · rw [if_pos hzero] at hnext
    cases hnext
    have hplace : m.pc + 3 + 2 = code.romAddress (i + 1) := by
      rw [romAddress_succ hs, hcode, hpc, UInt16.add_assoc]
      rfl
    rw [if_neg (by simp [hzero]), hplace] at harrives
    exact leads_of_arrives hrom harrives (.inl rfl)
  · rw [if_neg hzero] at hnext
    obtain ⟨j, htarget, rfl⟩ := Option.map_eq_some_iff.1 hnext
    obtain rfl : a = code.romAddress j := Option.some.inj (ha.symm.trans (h.address?_target htarget))
    rw [if_pos (by simp [hzero]), h.romAddress_and] at harrives
    exact leads_of_arrives hrom harrives (.inl rfl)

/-- The jump of a call stands inside its code, where no command is, so that a call never stops the
machine. -/
theorem leads_call {name : String} {args address : Word} {j : Nat} {mem : Memory}
    (hcommand : s.command = .call name args) (hargs : args.toNat ≤ Word.maxLiteral)
    (haddress : code.symbols.address? (returnLabel name s.position) = some address)
    (henter : shared.enter? m.ram address args = some mem)
    (htarget : code.target? name = some j) : code.Leads p m ⟨j, mem⟩ := by
  have hcode : s.code = call name args (returnLabel name s.position) := by
    rw [Site.code, hcommand]
    rfl
  have hplaced := codeAt_of_code h hs hrom hpc hcode
  have harrives := Machine.arrives_call hrun hplaced hargs (h.address?_target htarget) haddress
    (by rw [h.literal_address haddress]; exact henter)
  have hsize : codeSize s.code = 49 := by rw [hcode]; rfl
  have hne : code.romAddress j ≠ m.pc + 47 := by
    intro heq
    have hlt := h.offset_lt (i + 1)
    have hrom' : romSize = 32768 := rfl
    have hjump : (47 : Word).toNat = 47 := rfl
    have hoffset : code.offset j = code.offset i + 47 := by
      rw [← h.toNat_romAddress, heq, hpc, UInt16.toNat_add, h.toNat_romAddress, hjump]
      rw [offset_succ hs] at hlt
      omega
    obtain hlt | hle := Nat.lt_or_ge i j
    · have hgap := offset_add_le hs hlt
      omega
    · have hmono := code.offset_mono hle
      omega
  rw [h.romAddress_and, if_neg hne] at harrives
  exact leads_of_arrives hrom harrives (.inl rfl)

theorem leads_ret {address : Word} {j : Nat} {mem : Memory} (hcommand : s.command = .ret)
    (hleave : shared.leave? m.ram = some (address, mem)) (hresume : code.resume? address = some j) :
    code.Leads p m ⟨j, mem⟩ := by
  have hcode : s.code = ret := by
    rw [Site.code, hcommand]
    rfl
  have hplaced := codeAt_of_code h hs hrom hpc hcode
  have heq := h.romAddress_resume hresume
  have hlt : address.toNat < 32768 := by
    rw [← heq, h.toNat_romAddress]
    exact h.offset_lt j
  have harrives := Machine.arrives_ret hrun hplaced hlt hleave
  rw [← heq] at harrives
  exact leads_of_arrives hrom harrives (.inl rfl)

theorem leads_perform {r' : State} (hperform : code.perform? shared i s m.ram = some r') :
    code.Leads p m r' := by
  have hwell := h.wellFormed hs
  unfold perform? at hperform
  cases hcommand : s.command with
  | push segment index =>
    simp only [hcommand] at hperform
    obtain ⟨mem, hmem, rfl⟩ := Option.map_eq_some_iff.1 hperform
    rw [hcommand] at hwell
    have hcode : s.code = push s.unit segment index := by rw [Site.code, hcommand]; rfl
    refine leads_exec h hs hrun hrom hpc ?_ ?_
    · rw [hcode]
      cases segment <;> exact List.all_eq_true.1 rfl
    · rw [hcode, exec_push _ _ _ hwell, h.static_eq]
      exact hmem
  | pop segment index =>
    simp only [hcommand] at hperform
    obtain ⟨mem, hmem, rfl⟩ := Option.map_eq_some_iff.1 hperform
    rw [hcommand] at hwell
    have hcode : s.code = pop s.unit segment index := by rw [Site.code, hcommand]; rfl
    refine leads_exec h hs hrun hrom hpc ?_ ?_
    · rw [hcode]
      cases segment <;> exact List.all_eq_true.1 rfl
    · rw [hcode, exec_pop _ _ _ hwell.2, h.static_eq]
      exact hmem
  | operate op =>
    simp only [hcommand] at hperform
    obtain ⟨mem, hmem, rfl⟩ := Option.map_eq_some_iff.1 hperform
    exact leads_operate h hs hrun hrom hpc hcommand hmem
  | label name =>
    simp only [hcommand] at hperform
    cases hperform
    have hcode : s.code = [.label name] := by rw [Site.code, hcommand]; rfl
    refine leads_exec h hs hrun hrom hpc ?_ ?_
    · rw [hcode]
      exact List.all_eq_true.1 rfl
    · rw [hcode]
      rfl
  | goto name =>
    simp only [hcommand] at hperform
    obtain ⟨j, htarget, rfl⟩ := Option.map_eq_some_iff.1 hperform
    exact leads_goto h hs hrun hrom hpc hcommand htarget
  | ifGoto name =>
    simp only [hcommand] at hperform
    obtain ⟨⟨value, popped⟩, hpop, hnext⟩ := Option.bind_eq_some_iff.1 hperform
    exact leads_ifGoto h hs hrun hrom hpc hcommand hpop hnext
  | function name locals =>
    simp only [hcommand] at hperform
    obtain ⟨mem, hmem, rfl⟩ := Option.map_eq_some_iff.1 hperform
    exact leads_function h hs hrun hrom hpc hcommand hmem
  | call name args =>
    simp only [hcommand] at hperform
    obtain ⟨address, haddress, hperform⟩ := Option.bind_eq_some_iff.1 hperform
    obtain ⟨mem, henter, hperform⟩ := Option.bind_eq_some_iff.1 hperform
    obtain ⟨j, htarget, rfl⟩ := Option.map_eq_some_iff.1 hperform
    rw [hcommand] at hwell
    exact leads_call h hs hrun hrom hpc hcommand hwell.2 haddress henter htarget
  | ret =>
    simp only [hcommand] at hperform
    obtain ⟨⟨address, mem⟩, hleave, hperform⟩ := Option.bind_eq_some_iff.1 hperform
    obtain ⟨j, hresume, rfl⟩ := Option.map_eq_some_iff.1 hperform
    exact leads_ret h hs hrun hrom hpc hcommand hleave hresume

end Site

def stackSetup (stackBase : Word) : List Statement :=
  [.value stackBase, assign .toD (.y .a), .symbol stackPointer, assign .toM .d]

theorem exec_stackSetup (table : SymbolTable) (s : Core) {stackBase : Word}
    (hbase : stackBase.toNat ≤ Word.maxLiteral) :
    (exec table (stackSetup stackBase) s).map Core.ram = some (s.ram.write 0 stackBase) := by
  rw [stackSetup, exec_value, exec_setD _ _ _ rfl, exec_stackPointer, exec_store _ _ _ rfl,
    Word.literal_and hbase]
  rfl

namespace Loaded

variable {p : Program} (h : code.Loaded p)
include h

/-- A machine that follows the stack machine can follow its next command. -/
theorem leads_step {r r' : State} {m : Machine} (hm : code.Follows p r m)
    (hstep : code.step? shared r = some r') : code.Leads p m r' := by
  -- A machine that has stopped stays where it is: the stack machine changes nothing any more.
  obtain hrun | ⟨hhalted, hinert⟩ := hm.status
  · obtain ⟨s, hs, hperform⟩ := Option.bind_eq_some_iff.1 hstep
    rw [← hm.ram] at hperform
    exact leads_perform h hs hrun hm.rom hm.pc hperform
  · obtain ⟨hinert', hram, hoffset⟩ := hinert.step hstep
    have hpc : m.pc = code.romAddress r'.position := by rw [hm.pc, romAddress, romAddress, hoffset]
    exact ⟨m, .refl m, hm.rom, hpc, hm.ram.trans hram.symm, .inr ⟨hhalted, hinert'⟩⟩

theorem leads_run {r r' : State} {m : Machine} {n : Nat} (hm : code.Follows p r m)
    (hrun : code.run? shared n r = some r') : code.Leads p m r' := by
  induction n generalizing r m with
  | zero =>
    cases hrun
    exact ⟨m, .refl m, hm⟩
  | succ n ih =>
    obtain ⟨next, hstep, hrest⟩ := Option.bind_eq_some_iff.1 hrun
    obtain ⟨u, hreach, hu⟩ := h.leads_step hm hstep
    obtain ⟨v, hreach', hv⟩ := ih hu hrest
    exact ⟨v, hreach.trans hreach', hv⟩

/-- A machine at address 0 gets to the first command, through the bootstrap if there is one. -/
theorem leads_start {m : Machine} {r : State} (hrun : m.status = .running)
    (hrom : m.rom = p.words) (hpc : m.pc = 0) (hstart : code.start? shared m.ram = some r) :
    code.Leads p m r := by
  unfold start? at hstart
  split at hstart
  next hboot =>
    obtain ⟨address, haddress, hstart⟩ := Option.bind_eq_some_iff.1 hstart
    obtain ⟨mem, henter, hstart⟩ := Option.bind_eq_some_iff.1 hstart
    obtain ⟨j, htarget, rfl⟩ := Option.map_eq_some_iff.1 hstart
    have hall : code.all = stackSetup code.options.stackBase ++
        (call code.options.entryPoint 0 (returnLabel code.options.entryPoint 0) ++ code.after 0) := by
      rw [code.all_eq 0, before, bootCode, if_pos hboot]
      simp [bootstrap, stackSetup]
    have hplaced : CodeAt m.rom code.symbols m.pc code.all := by
      rw [hrom, hpc, ← h.symbols]
      exact h.assembles.placed
    rw [hall] at hplaced
    obtain ⟨hsetup, hcall⟩ := codeAt_append.1 hplaced
    have hmem := exec_stackSetup code.symbols m.core h.stackBase
    have hfirst : code.offset 0 = 53 := by
      rw [offset, before, bootCode, if_pos hboot, List.take_zero, List.flatMap_nil, List.append_nil]
      rfl
    have hmono := code.offset_mono (Nat.zero_le j)
    -- The jump stands inside the bootstrap and every command behind it.
    have hne : code.romAddress j ≠ 0 + 4 + 47 := by
      intro heq
      have hoffset := h.toNat_romAddress j
      rw [heq] at hoffset
      have hjump : ((0 : Word) + 4 + 47).toNat = 51 := rfl
      omega
    have harrives : m.Arrives (code.romAddress j) mem .running := by
      refine (Machine.arrives_exec hrun hsetup (List.all_eq_true.1 rfl) hmem).followed
        fun u hrom' hpc' hram' hstatus => ?_
      have hjump := Machine.arrives_call hstatus
        (by rw [hrom', hpc']; exact (codeAt_append.1 hcall).1) (Nat.zero_le _)
        (h.address?_target htarget) haddress
        (by rw [h.literal_address haddress, hram']; exact henter)
      rw [h.romAddress_and, hpc', hpc] at hjump
      exact (if_neg hne : (if code.romAddress j = 0 + 4 + 47 then Status.halted else .running) = _) ▸
        hjump
    exact leads_of_arrives hrom harrives (.inl rfl)
  next hboot =>
    cases hstart
    have hzero : code.romAddress 0 = 0 := by
      rw [romAddress, offset, before, bootCode, if_neg hboot]
      rfl
    exact ⟨m, .refl m, hrom, hpc.trans hzero.symm, rfl, .inl hrun⟩

end Loaded

theorem loaded_of_assemble {options : Options} (hoptions : options.validate = .ok ())
    {units : List SourceUnit} (hunits : ∀ u ∈ units, u.Readable) {withBootstrap : Bool} {p : Program}
    (hp : assemble (assemblyText options withBootstrap units) = .ok p)
    (hroom : p.words.size < romSize) : Loaded ⟨options, withBootstrap, units, p.symbols⟩ p where
  symbols := rfl
  assembles := by
    have hassembles := assembles_render (program_writable hoptions withBootstrap hunits) hp
    rwa [statements_program] at hassembles
  room := hroom
  commands s hs := (sitesFrom_sound (fun u hu => (hunits u hu).accepted) s hs).command
  stackBase := (validate_eq_ok hoptions).1

section Sample

def loopSource : String :=
  "function Sys.init 0\npush constant 7\npush constant 9\nlt\nlabel LOOP\ngoto LOOP\n"

def loopUnit : SourceUnit where
  name := "Sys"
  commands :=
    [⟨.function "Sys.init" 0, "Sys.vm", 1⟩, ⟨.push .constant 7, "Sys.vm", 2⟩,
     ⟨.push .constant 9, "Sys.vm", 3⟩, ⟨.operate .lt, "Sys.vm", 4⟩,
     ⟨.label "Sys.init$LOOP", "Sys.vm", 5⟩, ⟨.goto "Sys.init$LOOP", "Sys.vm", 6⟩]

theorem loopUnit_read : SourceUnit.read "Sys" "Sys.vm" loopSource = .ok loopUnit := rfl

theorem loopUnit_readable : ∀ u ∈ [loopUnit], u.Readable := by
  intro u hu
  obtain rfl := List.mem_singleton.1 hu
  exact ⟨by decide, "Sys.vm", loopSource, by decide, loopUnit_read⟩

theorem codeSize_loopUnit : codeSize (programCode {} true [loopUnit]) = 84 := rfl

theorem exists_assemble_loopUnit : ∃ p, assemble (assemblyText {} true [loopUnit]) = .ok p := by
  refine exists_assemble_render (program_writable rfl true loopUnit_readable) ?_ ?_
  · rw [statements_program, bindable_programCode {} true (by decide) (by decide)]
    decide
  · rw [statements_program, codeSize_loopUnit]
    decide

theorem run_loopUnit (symbols : SymbolTable) {address : Word}
    (haddress : symbols.address? (returnLabel "Sys.init" 0) = some address) (ram : Memory) :
    ∃ mem, ((Code.mk {} true [loopUnit] symbols).start? shared ram).bind
        ((Code.mk {} true [loopUnit] symbols).run? shared 7) = some ⟨5, mem⟩ ∧
      mem.read 0 = 262 ∧ mem.read 261 = 0xFFFF := by
  have hbase : (ram.write 0 256).read 0 = 256 := Memory.read_write_self (by decide)
  obtain ⟨entered, henter, -, hpointer, -⟩ :=
    Access.enter?_spec address 0 hbase (by decide) (by decide)
  obtain ⟨first, hfirst, hpointer', hseven, -⟩ :=
    Memory.push?_spec 7 hpointer (by decide) (by decide)
  obtain ⟨second, hsecond, hpointer'', hnine, hkeep⟩ :=
    Memory.push?_spec 9 hpointer' (by decide) (by decide)
  have hleft : second.read 261 = 7 := (hkeep 261 (by decide) (by decide)).trans hseven
  let answered := (second.write 0 262).write 261 0xFFFF
  have hoperate : shared.operate? second .lt = some answered := by
    have hpop : shared.pop? second = some (9, second.write 0 262) := by
      have htop : second.read 0 - 1 = 262 := by
        rw [hpointer'']
        rfl
      rw [Memory.pop?_of_top htop (by decide) (by decide)]
      exact congrArg (fun v => some (v, second.write 0 262)) hnine
    have hload : shared.load? (second.write 0 262) 261 = some 7 := by
      rw [shared_load?, Memory.load?_of_lt (by decide), Memory.read_write_ne (by decide), hleft]
    rw [operate?, if_neg (by decide), hpop]
    change (shared.load? _ ((second.write 0 262).read 0 - 1)).bind _ = _
    rw [Memory.read_write_self (by decide)]
    change (shared.load? (second.write 0 262) 261).bind _ = _
    rw [hload]
    rfl
  let code : Code := ⟨{}, true, [loopUnit], symbols⟩
  have hinit : code.target? "Sys.init" = some 0 := rfl
  have hloop : code.target? "Sys.init$LOOP" = some 4 := rfl
  have hstart : code.start? shared ram = some ⟨0, entered⟩ := by
    change (symbols.address? (returnLabel "Sys.init" 0)).bind _ = _
    rw [haddress, Option.bind_some, henter]
    exact congrArg (Option.map fun target => State.mk target entered) hinit
  have hfunction : code.step? shared ⟨0, entered⟩ = some ⟨1, entered⟩ := rfl
  have hpush : code.step? shared ⟨1, entered⟩ = some ⟨2, first⟩ := congrArg (Option.map _) hfirst
  have hpush' : code.step? shared ⟨2, first⟩ = some ⟨3, second⟩ := congrArg (Option.map _) hsecond
  have hlt : code.step? shared ⟨3, second⟩ = some ⟨4, answered⟩ := congrArg (Option.map _) hoperate
  have hlabel : code.step? shared ⟨4, answered⟩ = some ⟨5, answered⟩ := rfl
  have hgoto : code.step? shared ⟨5, answered⟩ = some ⟨4, answered⟩ :=
    congrArg (Option.map fun target => State.mk target answered) hloop
  refine ⟨answered, ?_, ?_, Memory.read_write_self (by decide)⟩
  · change (code.start? shared ram).bind (code.run? shared 7) = _
    simp only [hstart, Option.bind_some, run?, hfunction, hpush, hpush', hlt, hlabel, hgoto]
  · exact (Memory.read_write_ne (by decide)).trans (Memory.read_write_self (by decide))

end Sample

end StackMachine.Code

end HackStack
