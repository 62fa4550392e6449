import HackStack.Proofs.Encoding

set_option autoImplicit false

namespace HackStack

open Assembly

/-- What code without jumps works on: the memory and two registers. -/
structure Core where
  ram : Memory
  a : Word
  d : Word

namespace Compute

def usesMemory (c : Compute) : Bool := c.comp.readsMemory || c.dest.m

def result (c : Compute) (s : Core) : Word :=
  c.comp.eval s.d (if c.comp.readsMemory then s.ram.read s.a else s.a)

/-- The core after a computation, or none if it uses a cell that does not exist. -/
def effect? (c : Compute) (s : Core) : Option Core :=
  if c.usesMemory ∧ ramSize ≤ s.a.toNat then none
  else some {
    ram := if c.dest.m then s.ram.write s.a (c.result s) else s.ram
    a := if c.dest.a then c.result s else s.a
    d := if c.dest.d then c.result s else s.d }

end Compute

namespace Assembly.Statement

def word? (table : SymbolTable) : Statement → Option Word
  | .value v => some (Instruction.address v).encode
  | .symbol name => (table.address? name).map fun a => (Instruction.address a).encode
  | .compute c => some (Instruction.compute c).encode
  | .label _ => none

/-- The core after a statement. An address register takes fifteen bits. -/
def effect? (table : SymbolTable) : Statement → Core → Option Core
  | .value v, s => some { s with a := v &&& 0x7FFF }
  | .symbol name, s => (table.address? name).map fun a => { s with a := a &&& 0x7FFF }
  | .compute c, s => c.effect? s
  | .label _, s => some s

/-- Whether control goes on to the next statement whatever happens. -/
def falls : Statement → Bool
  | .compute c => c.jump = .never
  | _ => true

end Assembly.Statement

def codeSize (code : List Statement) : Nat := code.countP (·.isInstruction)

def exec (table : SymbolTable) : List Statement → Core → Option Core
  | [], s => some s
  | i :: code, s => (i.effect? table s).bind (exec table code)

/-- The words of some statements stand in a program from `pc` on. -/
def CodeAt (rom : Array Word) (table : SymbolTable) : Word → List Statement → Prop
  | _, [] => True
  | pc, i :: code =>
    if i.isInstruction then
      (∃ w, i.word? table = some w ∧ rom[pc.toNat]? = some w) ∧ CodeAt rom table (pc + 1) code
    else CodeAt rom table pc code

@[simp]
theorem codeSize_nil : codeSize [] = 0 := rfl

theorem codeSize_cons (i : Statement) (code : List Statement) :
    codeSize (i :: code) = codeSize code + if i.isInstruction then 1 else 0 :=
  List.countP_cons

@[simp]
theorem codeSize_append (xs ys : List Statement) :
    codeSize (xs ++ ys) = codeSize xs + codeSize ys := List.countP_append

theorem codeAt_append {rom : Array Word} {table : SymbolTable} {pc : Word} {xs ys : List Statement} :
    CodeAt rom table pc (xs ++ ys) ↔
      CodeAt rom table pc xs ∧ CodeAt rom table (pc + (codeSize xs).toUInt16) ys := by
  induction xs generalizing pc with
  | nil => simp [CodeAt]
  | cons i xs ih =>
    by_cases hi : i.isInstruction
    · have hpc : pc + (codeSize (i :: xs)).toUInt16 = pc + 1 + (codeSize xs).toUInt16 := by
        rw [codeSize_cons, if_pos hi, Nat.add_comm]
        simp only [Nat.toUInt16_eq, UInt16.ofNat_add, UInt16.add_assoc]
        rfl
      rw [hpc]
      simp only [List.cons_append, CodeAt, if_pos hi, ih, and_assoc]
    · rw [codeSize_cons, if_neg hi, Nat.add_zero]
      simp only [List.cons_append, CodeAt, if_neg hi, ih]

/-- The words of some statements, placed in a program, are code of these statements. -/
theorem codeAt_words {rom : Array Word} {table : SymbolTable} {code : List Statement}
    {before after : List Word}
    (hrom : rom.toList = before ++ (code.filterMap (·.word? table) ++ after))
    (hbound : ∀ i ∈ code, i.isInstruction → (i.word? table).isSome)
    (hsize : before.length + codeSize code ≤ UInt16.size) :
    CodeAt rom table before.length.toUInt16 code := by
  induction code generalizing before with
  | nil => trivial
  | cons i code ih =>
    obtain ⟨hi, htail⟩ := List.forall_mem_cons.1 hbound
    rw [codeSize_cons] at hsize
    by_cases h : i.isInstruction
    · obtain ⟨w, hw⟩ := Option.isSome_iff_exists.1 (hi h)
      rw [if_pos h] at hsize
      rw [List.filterMap_cons_some hw] at hrom
      have hpc : before.length.toUInt16.toNat = before.length :=
        UInt16.toNat_ofNat_of_lt' (by omega)
      have hrest : rom.toList = (before ++ [w]) ++ (code.filterMap (·.word? table) ++ after) := by
        rw [hrom, List.append_assoc]
        rfl
      have hnext := ih hrest htail (by rw [List.length_append, List.length_singleton]; omega)
      rw [List.length_append, List.length_singleton, Nat.toUInt16_eq, UInt16.ofNat_add] at hnext
      simp only [CodeAt, if_pos h]
      refine ⟨⟨w, hw, ?_⟩, hnext⟩
      rw [hpc, ← Array.getElem?_toList, hrom]
      simp
    · have hw : i.word? table = none := by
        cases i with
        | label name => rfl
        | _ => exact absurd rfl h
      rw [List.filterMap_cons_none hw] at hrom
      simp only [CodeAt, if_neg h]
      exact ih hrom htail (by rw [if_neg h] at hsize; exact hsize)

namespace Machine

inductive Reaches : Machine → Machine → Prop where
  | refl (m : Machine) : Reaches m m
  | next {m u v : Machine} (h : m.step = .ok u) (tail : Reaches u v) : Reaches m v

theorem Reaches.trans {m u v : Machine} (h : Reaches m u) (h' : Reaches u v) : Reaches m v := by
  induction h with
  | refl _ => exact h'
  | next hs _ ih => exact .next hs (ih h')

theorem Reaches.single {m u : Machine} (h : m.step = .ok u) : Reaches m u := .next h (.refl u)

inductive Stays (P : Word → Prop) : Machine → Machine → Prop where
  | refl (m : Machine) : Stays P m m
  | next {m u v : Machine} (hpc : P m.pc) (h : m.step = .ok u) (tail : Stays P u v) :
      Stays P m v

theorem Stays.trans {P : Word → Prop} {m u v : Machine} (h : Stays P m u)
    (h' : Stays P u v) : Stays P m v := by
  induction h with
  | refl _ => exact h'
  | next hpc hs _ ih => exact .next hpc hs (ih h')

theorem Stays.reaches {P : Word → Prop} {m u : Machine} (h : Stays P m u) : Reaches m u := by
  induction h with
  | refl _ => exact .refl _
  | next _ hs _ ih => exact .next hs ih

def core (m : Machine) : Core := ⟨m.ram, m.a, m.d⟩

/-- The machine that has gone through `n` instructions with some effect on its core. -/
def past (m : Machine) (s : Core) (n : Nat) : Machine :=
  { m with ram := s.ram, a := s.a, d := s.d, pc := m.pc + n.toUInt16, steps := m.steps + n }

theorem past_past (m : Machine) (s t : Core) (n k : Nat) :
    (m.past s n).past t k = m.past t (n + k) := by
  simp only [past, Nat.toUInt16_eq, UInt16.ofNat_add, UInt16.add_assoc, Nat.add_assoc]

theorem past_core (m : Machine) : m.past m.core 0 = m := by
  simp [past, core]

def computed (m : Machine) (c : Compute) : Machine :=
  { m with
    ram := if c.dest.m then m.ram.write m.a (c.result m.core) else m.ram
    a := if c.dest.a then c.result m.core else m.a
    d := if c.dest.d then c.result m.core else m.d
    pc := if c.jump.holds (c.result m.core) then m.a else m.pc + 1
    status := if c.jump == .always && isHaltLoop m.rom m.pc m.a then .halted else m.status
    steps := m.steps + 1 }

theorem compute_encode (m : Machine) (c : Compute) :
    m.compute (Instruction.compute c).encode = m.computed c := by
  simp only [compute, computed, Instruction.dest_compute, Instruction.jump_compute,
    Instruction.control_compute, Instruction.compute_reads, Comp.output_lines, Compute.result,
    core]
  rfl

theorem refusal_compute (m : Machine) (c : Compute) :
    m.refusal? (Instruction.compute c).encode =
      if c.usesMemory ∧ ramSize ≤ m.a.toNat then some (.outOfBounds m.a m.pc) else none := by
  simp only [refusal?, Instruction.compute_first, Instruction.compute_legal,
    Instruction.compute_reads, Instruction.compute_writes, Compute.usesMemory]
  simp

theorem step_of_fetch {m : Machine} {w : Word} (hrun : m.status = .running) (hw : m.fetch = some w)
    (hok : m.refusal? w = none) : m.step = .ok (m.execute w) := by
  simp only [step, fault?, advance, hrun, hw, Option.bind_some, hok]

theorem step_address {m : Machine} {v : Word} (hrun : m.status = .running)
    (hw : m.fetch = some (Instruction.address v).encode) :
    m.step = .ok (m.past { m.core with a := v &&& 0x7FFF } 1) := by
  have hfirst := Instruction.address_first v
  rw [step_of_fetch hrun hw (by simp only [refusal?, hfirst]; rfl)]
  simp only [execute, hfirst]
  rfl

theorem step_compute {m : Machine} {c : Compute} (hrun : m.status = .running)
    (hw : m.fetch = some (Instruction.compute c).encode)
    (hok : ¬ (c.usesMemory ∧ ramSize ≤ m.a.toNat)) : m.step = .ok (m.computed c) := by
  rw [step_of_fetch hrun hw (by rw [refusal_compute, if_neg hok])]
  simp only [execute, Instruction.compute_first, compute_encode]
  rfl

theorem step_refused {m : Machine} {c : Compute} (hrun : m.status = .running)
    (hw : m.fetch = some (Instruction.compute c).encode)
    (h : c.usesMemory ∧ ramSize ≤ m.a.toNat) : m.step = .error (.outOfBounds m.a m.pc) := by
  simp only [step, fault?, hrun, hw, Option.bind_some, refusal_compute, if_pos h]

/-- A computation without a jump moves on to the next instruction. -/
theorem step_falls {m : Machine} {c : Compute} {s : Core} (hrun : m.status = .running)
    (hw : m.fetch = some (Instruction.compute c).encode) (hjump : c.jump = .never)
    (hs : c.effect? m.core = some s) : m.step = .ok (m.past s 1) := by
  have hok : ¬ (c.usesMemory ∧ ramSize ≤ m.a.toNat) := by
    intro h
    simp [Compute.effect?, core, h] at hs
  rw [step_compute hrun hw hok]
  rw [Compute.effect?, if_neg (show ¬ (_ ∧ ramSize ≤ m.core.a.toNat) from hok)] at hs
  cases hs
  have hholds : ∀ w, Jump.never.holds w = false := by
    intro w
    simp [Jump.holds, Jump.never]
  simp only [computed, past, core, hjump, hholds]
  rfl

/-- A jump on a computation that neither reads nor stores. -/
theorem step_branch {m : Machine} {comp : Comp} {jump : Jump} (hrun : m.status = .running)
    (hcomp : comp.readsMemory = false)
    (hw : m.fetch = some (Instruction.compute ⟨.none, comp, jump⟩).encode) :
    m.step = .ok { m with
      pc := if jump.holds (comp.eval m.d m.a) then m.a else m.pc + 1
      status := if jump == .always && isHaltLoop m.rom m.pc m.a then .halted else .running
      steps := m.steps + 1 } := by
  rw [step_compute hrun hw (by simp [Compute.usesMemory, hcomp, Dest.none])]
  simp only [computed, Compute.result, core, hcomp, Dest.none, hrun]
  rfl

/-- A statement without a jump that is not refused moves on to the next one. -/
theorem step_statement {table : SymbolTable} {i : Statement} {code : List Statement} {m : Machine}
    {s : Core} (hrun : m.status = .running) (hcode : CodeAt m.rom table m.pc (i :: code))
    (hi : i.isInstruction) (hfalls : i.falls) (hs : i.effect? table m.core = some s) :
    m.step = .ok (m.past s 1) := by
  simp only [CodeAt, if_pos hi] at hcode
  obtain ⟨⟨w, hw, hrom⟩, -⟩ := hcode
  cases i with
  | label name => cases hi
  | value v =>
    simp only [Statement.word?, Option.some.injEq] at hw
    simp only [Statement.effect?, Option.some.injEq] at hs
    subst hw hs
    exact step_address hrun hrom
  | symbol name =>
    obtain ⟨a, ha, rfl⟩ := Option.map_eq_some_iff.1 hw
    simp only [Statement.effect?, ha, Option.map_some, Option.some.injEq] at hs
    subst hs
    exact step_address hrun hrom
  | compute c =>
    simp only [Statement.word?, Option.some.injEq] at hw
    subst hw
    have hjump : c.jump = .never := by
      simpa [Statement.falls] using hfalls
    exact step_falls hrun hrom hjump hs

theorem forall_places_succ {P : Word → Prop} {pc : Word} {n : Nat}
    (h : ∀ j, j < n + 1 → P (pc + j.toUInt16)) : P pc ∧ ∀ j, j < n → P (pc + 1 + j.toUInt16) := by
  constructor
  · simpa using h 0 (Nat.succ_pos n)
  · intro j hj
    have hnext := h (j + 1) (Nat.succ_lt_succ hj)
    rw [Nat.add_comm, Nat.toUInt16_eq, UInt16.ofNat_add, ← UInt16.add_assoc] at hnext
    exact hnext

/-- A machine before code without jumps goes through it to its end, with the effect of the code. -/
theorem stays_exec {P : Word → Prop} {table : SymbolTable} {code : List Statement} {m : Machine}
    {s : Core} (hrun : m.status = .running) (hcode : CodeAt m.rom table m.pc code)
    (hfalls : ∀ i ∈ code, i.falls) (hplace : ∀ j, j < codeSize code → P (m.pc + j.toUInt16))
    (hs : exec table code m.core = some s) : Stays P m (m.past s (codeSize code)) := by
  induction code generalizing m with
  | nil =>
    simp only [exec, Option.some.injEq] at hs
    subst hs
    rw [codeSize_nil, past_core]
    exact .refl m
  | cons i code ih =>
    obtain ⟨u, hu, hs⟩ := Option.bind_eq_some_iff.1 hs
    obtain ⟨hi, htail⟩ := List.forall_mem_cons.1 hfalls
    by_cases hw : i.isInstruction
    · have hstep := step_statement hrun hcode hw hi hu
      simp only [CodeAt, if_pos hw] at hcode
      rw [codeSize_cons, if_pos hw] at hplace ⊢
      obtain ⟨hfirst, hnext⟩ := forall_places_succ hplace
      have hrest := ih (m := m.past u 1) hrun hcode.2 htail hnext hs
      rw [past_past] at hrest
      rw [Nat.add_comm]
      exact .next hfirst hstep hrest
    · simp only [CodeAt, if_neg hw] at hcode
      rw [codeSize_cons, if_neg hw, Nat.add_zero] at hplace ⊢
      have hsame : u = m.core := by
        cases i with
        | label name => exact (Option.some.inj hu).symm
        | _ => exact absurd rfl hw
      subst hsame
      exact ih hrun hcode htail hplace hs

theorem reaches_exec {table : SymbolTable} {code : List Statement} {m : Machine} {s : Core}
    (hrun : m.status = .running) (hcode : CodeAt m.rom table m.pc code)
    (hfalls : ∀ i ∈ code, i.falls) (hs : exec table code m.core = some s) :
    Reaches m (m.past s (codeSize code)) :=
  (stays_exec (P := fun _ => True) hrun hcode hfalls (fun _ _ => trivial) hs).reaches

def Arrives (m : Machine) (pc : Word) (mem : Memory) (status : Status) : Prop :=
  ∃ u, Reaches m u ∧ u.rom = m.rom ∧ u.pc = pc ∧ u.ram = mem ∧ u.status = status

/-- What a machine does after it has arrived somewhere depends on its program, its memory and its place
only. -/
theorem Arrives.followed {m : Machine} {pc pc' : Word} {mem mem' : Memory} {status : Status}
    (h : m.Arrives pc mem .running)
    (next : ∀ u : Machine, u.rom = m.rom → u.pc = pc → u.ram = mem → u.status = .running →
      u.Arrives pc' mem' status) : m.Arrives pc' mem' status := by
  obtain ⟨u, hreach, hrom, hpc, hram, hstatus⟩ := h
  obtain ⟨v, hreach', hrom', hv⟩ := next u hrom hpc hram hstatus
  exact ⟨v, hreach.trans hreach', hrom'.trans hrom, hv⟩

def ArrivesOver (P : Word → Prop) (m : Machine) (pc : Word) (mem : Memory) (status : Status) :
    Prop :=
  ∃ u, Stays P m u ∧ u.rom = m.rom ∧ u.pc = pc ∧ u.ram = mem ∧ u.status = status

theorem ArrivesOver.arrives {P : Word → Prop} {m : Machine} {pc : Word} {mem : Memory}
    {status : Status} (h : m.ArrivesOver P pc mem status) : m.Arrives pc mem status := by
  obtain ⟨u, hstays, hu⟩ := h
  exact ⟨u, hstays.reaches, hu⟩

theorem ArrivesOver.followed {P : Word → Prop} {m : Machine} {pc pc' : Word} {mem mem' : Memory}
    {status : Status} (h : m.ArrivesOver P pc mem .running)
    (next : ∀ u : Machine, u.rom = m.rom → u.pc = pc → u.ram = mem → u.status = .running →
      u.ArrivesOver P pc' mem' status) : m.ArrivesOver P pc' mem' status := by
  obtain ⟨u, hstays, hrom, hpc, hram, hstatus⟩ := h
  obtain ⟨v, hstays', hrom', hv⟩ := next u hrom hpc hram hstatus
  exact ⟨v, hstays.trans hstays', hrom'.trans hrom, hv⟩

theorem arrivesOver_exec {P : Word → Prop} {table : SymbolTable} {code : List Statement}
    {m : Machine} {mem : Memory} (hrun : m.status = .running) (hcode : CodeAt m.rom table m.pc code)
    (hfalls : ∀ i ∈ code, i.falls) (hplace : ∀ j, j < codeSize code → P (m.pc + j.toUInt16))
    (hmem : (exec table code m.core).map Core.ram = some mem) :
    m.ArrivesOver P (m.pc + (codeSize code).toUInt16) mem .running := by
  obtain ⟨s, hs, rfl⟩ := Option.map_eq_some_iff.1 hmem
  exact ⟨_, stays_exec hrun hcode hfalls hplace hs, rfl, rfl, rfl, hrun⟩

theorem arrives_exec {table : SymbolTable} {code : List Statement} {m : Machine} {mem : Memory}
    (hrun : m.status = .running) (hcode : CodeAt m.rom table m.pc code)
    (hfalls : ∀ i ∈ code, i.falls) (hmem : (exec table code m.core).map Core.ram = some mem) :
    m.Arrives (m.pc + (codeSize code).toUInt16) mem .running :=
  (arrivesOver_exec (P := fun _ => True) hrun hcode hfalls (fun _ _ => trivial) hmem).arrives

theorem step_symbol {table : SymbolTable} {code : List Statement} {m : Machine} {name : String}
    {a : Word} (hrun : m.status = .running)
    (hcode : CodeAt m.rom table m.pc (.symbol name :: code)) (ha : table.address? name = some a) :
    m.step = .ok (m.past { m.core with a := a &&& 0x7FFF } 1) := by
  obtain ⟨⟨w, hw, hrom⟩, -⟩ := hcode
  simp only [Statement.word?, ha, Option.map_some, Option.some.injEq] at hw
  subst hw
  exact step_address hrun hrom

/-- A jump to a symbol halts the machine exactly if it goes back to its own address instruction. -/
theorem isHaltLoop_symbol {rom : Array Word} {table : SymbolTable} {code : List Statement} {pc a : Word}
    {name : String} (hcode : CodeAt rom table pc (.symbol name :: code))
    (ha : table.address? name = some a) :
    isHaltLoop rom (pc + 1) (a &&& 0x7FFF) = decide (a &&& 0x7FFF = pc) := by
  obtain ⟨⟨w, hw, hrom⟩, -⟩ := hcode
  simp only [Statement.word?, ha, Option.map_some, Option.some.injEq, Instruction.encode] at hw
  subst hw
  by_cases h : a &&& 0x7FFF = pc
  · have hpos : 0 < pc + 1 := by
      have hpc : pc.toNat < 32768 := h ▸ Word.address_lt a
      have hone : (1 : Word).toNat = 1 := rfl
      rw [UInt16.lt_iff_toNat_lt, UInt16.toNat_add, UInt16.toNat_zero]
      omega
    simp [isHaltLoop, h, hpos, hrom]
  · simp [isHaltLoop, h]

theorem arrivesOver_goto {P : Word → Prop} {table : SymbolTable} {code : List Statement}
    {m : Machine} {name : String} {a : Word} (hrun : m.status = .running)
    (hcode : CodeAt m.rom table m.pc (.symbol name :: .goto :: code)) (hload : P m.pc)
    (hjump : P (m.pc + 1)) (ha : table.address? name = some a) :
    m.ArrivesOver P (a &&& 0x7FFF) m.ram
      (if a &&& 0x7FFF = m.pc then .halted else .running) := by
  have hstep := step_symbol hrun hcode ha
  have hloop := isHaltLoop_symbol hcode ha
  obtain ⟨-, ⟨w, hw, hrom⟩, -⟩ := hcode
  cases hw
  have hstep' := step_branch (m := m.past { m.core with a := a &&& 0x7FFF } 1) hrun rfl hrom
  refine ⟨_, .next hload hstep (.next hjump hstep' (.refl _)), rfl, rfl, rfl, ?_⟩
  change (if isHaltLoop m.rom (m.pc + 1) (a &&& 0x7FFF) then Status.halted else .running) = _
  simp only [hloop, decide_eq_true_eq]

theorem arrives_goto {table : SymbolTable} {code : List Statement} {m : Machine} {name : String}
    {a : Word} (hrun : m.status = .running)
    (hcode : CodeAt m.rom table m.pc (.symbol name :: .goto :: code))
    (ha : table.address? name = some a) :
    m.Arrives (a &&& 0x7FFF) m.ram (if a &&& 0x7FFF = m.pc then .halted else .running) :=
  (arrivesOver_goto (P := fun _ => True) hrun hcode trivial trivial ha).arrives

theorem arrivesOver_branch {P : Word → Prop} {table : SymbolTable} {code : List Statement}
    {m : Machine} {name : String} {a : Word} {jump : Jump} (hrun : m.status = .running)
    (hjump : jump ≠ .always)
    (hcode : CodeAt m.rom table m.pc (.symbol name :: .branch .d jump :: code)) (hload : P m.pc)
    (hbranch : P (m.pc + 1)) (ha : table.address? name = some a) :
    m.ArrivesOver P (if jump.holds m.d then a &&& 0x7FFF else m.pc + 2) m.ram .running := by
  have hstep := step_symbol hrun hcode ha
  obtain ⟨-, ⟨w, hw, hrom⟩, -⟩ := hcode
  cases hw
  have hstep' := step_branch (m := m.past { m.core with a := a &&& 0x7FFF } 1) hrun rfl hrom
  refine ⟨_, .next hload hstep (.next hbranch hstep' (.refl _)), rfl, ?_, rfl, ?_⟩
  · change (if jump.holds m.d then a &&& 0x7FFF else m.pc + 1 + 1) = _
    rw [UInt16.add_assoc]
    rfl
  · simp only [beq_eq_false_iff_ne.2 hjump, Bool.false_and, Bool.false_eq_true, if_false]

theorem arrives_branch {table : SymbolTable} {code : List Statement} {m : Machine} {name : String}
    {a : Word} {jump : Jump} (hrun : m.status = .running) (hjump : jump ≠ .always)
    (hcode : CodeAt m.rom table m.pc (.symbol name :: .branch .d jump :: code))
    (ha : table.address? name = some a) :
    m.Arrives (if jump.holds m.d then a &&& 0x7FFF else m.pc + 2) m.ram .running :=
  (arrivesOver_branch (P := fun _ => True) hrun hjump hcode trivial trivial ha).arrives

end Machine

end HackStack
