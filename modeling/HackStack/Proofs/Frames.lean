import HackStack.Proofs.Fragments
import HackStack.Proofs.Rendering

set_option autoImplicit false

namespace HackStack

open Assembly Statement Lowering Access

theorem Word.ne_of_lt {a b : Word} {n : Nat} (ha : a.toNat < n) (hb : n ≤ b.toNat) : a ≠ b := by
  rintro rfl
  omega

theorem Word.toNat_succ {a : Word} (h : a.toNat < ramSize) : (a + 1).toNat = a.toNat + 1 := by
  have hsize : ramSize = 32768 := rfl
  have hone : (1 : Word).toNat = 1 := rfl
  rw [UInt16.toNat_add]
  omega

theorem Word.toNat_pred {a : Word} (h : 1 ≤ a.toNat) : (a - 1).toNat = a.toNat - 1 :=
  UInt16.toNat_sub_of_le a 1 (UInt16.le_iff_toNat_le.2 h)

theorem Base.cell_injective {b c : Base} (h : b.cell = c.cell) : b = c := by
  cases b <;> cases c <;> first | rfl | cases h

namespace Memory

def Holds (mem : Memory) : Word → List Word → Prop
  | _, [] => True
  | cell, w :: words => mem.read cell = w ∧ mem.Holds (cell + 1) words

theorem push?_spec {mem : Memory} {sp : Word} (value : Word) (hsp : mem.read 0 = sp)
    (hlow : 1 ≤ sp.toNat) (hhigh : sp.toNat < ramSize) :
    ∃ mem', shared.push? mem value = some mem' ∧ mem'.read 0 = sp + 1 ∧ mem'.read sp = value ∧
      ∀ a, a ≠ 0 → a ≠ sp → mem'.read a = mem.read a := by
  have hne : 0 ≠ sp := Word.ne_of_lt (by decide) hlow
  refine ⟨(mem.write sp value).write 0 (sp + 1), ?_, read_write_self (by decide), ?_, ?_⟩
  · rw [push?, hsp, shared_store?, store?_of_lt value hhigh, Option.map_some,
      read_write_ne hne.symm, hsp]
  · rw [read_write_ne hne, read_write_self hhigh]
  · intro a h0 ha
    rw [read_write_ne h0.symm, read_write_ne ha.symm]

theorem push?_eq_none {mem : Memory} {sp : Word} (value : Word) (hsp : mem.read 0 = sp)
    (hfull : ¬ sp.toNat < ramSize) : shared.push? mem value = none := by
  rw [push?, hsp, shared_store?, store?, if_neg hfull, Option.map_none]

theorem pop?_of_top {mem : Memory} {top : Word} (htop : mem.read 0 - 1 = top) (hlow : 1 ≤ top.toNat)
    (hhigh : top.toNat < ramSize) :
    shared.pop? mem = some (mem.read top, mem.write 0 top) := by
  have hne : 0 ≠ top := Word.ne_of_lt (by decide) hlow
  rw [pop?, htop, shared_load?, load?_of_lt hhigh, read_write_ne hne]
  rfl

theorem pop?_spec {mem : Memory} {sp : Word} (hsp : mem.read 0 = sp) (hlow : 2 ≤ sp.toNat)
    (hhigh : sp.toNat ≤ ramSize) :
    shared.pop? mem = some (mem.read (sp - 1), mem.write 0 (sp - 1)) := by
  have htop := Word.toNat_pred (show 1 ≤ sp.toNat by omega)
  exact pop?_of_top (congrArg (· - 1) hsp) (by omega) (by omega)

/-- Changes below a bound do not reach words that stand above it. -/
theorem Holds.of_agree {mem mem' : Memory} {n : Nat}
    (hagree : ∀ a : Word, n ≤ a.toNat → mem'.read a = mem.read a) {words : List Word} {cell : Word}
    (hlow : n ≤ cell.toNat) (hhigh : cell.toNat + words.length ≤ ramSize)
    (h : mem.Holds cell words) : mem'.Holds cell words := by
  induction words generalizing cell with
  | nil => trivial
  | cons w words ih =>
    rw [List.length_cons] at hhigh
    have hsucc := Word.toNat_succ (show cell.toNat < ramSize by omega)
    exact ⟨(hagree cell hlow).trans h.1, ih (by omega) (by omega) h.2⟩

/-- Every base register of a saved frame is at its distance below the frame's end. -/
theorem read_frame {mem caller : Memory} {sp address : Word}
    (h : mem.Holds sp (address :: savedRegisters.map fun base => caller.read base.cell)) :
    ∀ p ∈ restoreOrder, mem.read (sp + 5 - p.2) = caller.read p.1.cell := by
  obtain ⟨-, hlcl, harg, hthis, hthat, -⟩ := h
  have h4 : sp + 5 - 4 = sp + 1 := by grind
  have h3 : sp + 5 - 3 = sp + 1 + 1 := by grind
  have h2 : sp + 5 - 2 = sp + 1 + 1 + 1 := by grind
  have h1 : sp + 5 - 1 = sp + 1 + 1 + 1 + 1 := by grind
  simp only [restoreOrder, List.forall_mem_cons, h1, h2, h3, h4, hlcl, harg, hthis, hthat, true_and]
  exact List.forall_mem_nil _

theorem read_bases {mem mem' : Memory} {sp : Word} (hlow : 16 ≤ sp.toNat)
    (hkeep : ∀ a, a ≠ 0 → a ≠ sp → mem'.read a = mem.read a) (bases : List Base) :
    (bases.map fun base => mem'.read base.cell) = bases.map fun base => mem.read base.cell := by
  refine List.map_congr_left fun base _ => hkeep _ (by cases base <;> decide) ?_
  exact Word.ne_of_lt (n := 16) (by cases base <;> decide) hlow

end Memory

namespace Access

theorem saves_spec (bases : List Base) {mem : Memory} {sp : Word} (hsp : mem.read 0 = sp)
    (hlow : 16 ≤ sp.toNat) (hhigh : sp.toNat + bases.length ≤ ramSize) :
    ∃ mem', bases.foldlM shared.save? mem = some mem' ∧ mem'.read 0 = sp + bases.length.toUInt16 ∧
      mem'.Holds sp (bases.map fun base => mem.read base.cell) ∧
      ∀ a, a ≠ 0 → (a.toNat < sp.toNat ∨ sp.toNat + bases.length ≤ a.toNat) →
        mem'.read a = mem.read a := by
  induction bases generalizing mem sp with
  | nil => exact ⟨mem, rfl, by simpa using hsp, trivial, fun _ _ _ => rfl⟩
  | cons base bases ih =>
    have hsize : ramSize = 32768 := rfl
    rw [List.length_cons] at hhigh
    obtain ⟨next, hpush, hnext, htop, hkeep⟩ :=
      Memory.push?_spec (mem.read base.cell) hsp (by omega) (by omega)
    have hsucc := Word.toNat_succ (show sp.toNat < ramSize by omega)
    obtain ⟨mem', hfold, hsp', hholds, hkeep'⟩ := ih hnext (by omega) (by omega)
    refine ⟨mem', ?_, ?_, ⟨?_, ?_⟩, ?_⟩
    · rw [List.foldlM_cons, save?, hpush]
      exact hfold
    · rw [hsp', List.length_cons]
      simp only [Nat.toUInt16_eq, UInt16.ofNat_add, UInt16.add_assoc]
      rw [UInt16.add_comm 1]
      rfl
    · rw [hkeep' sp (Word.ne_of_lt (n := 16) (by decide) hlow).symm (by omega), htop]
    · exact Memory.read_bases hlow hkeep bases ▸ hholds
    · intro a h0 ha
      rw [List.length_cons] at ha
      rw [hkeep' a h0 (by omega), hkeep a h0]
      rintro rfl
      omega

/-- A call saves the return address and the base registers above the arguments. -/
theorem enter?_spec {mem : Memory} {sp : Word} (address args : Word) (hsp : mem.read 0 = sp)
    (hlow : 16 ≤ sp.toNat) (hhigh : sp.toNat + 5 ≤ ramSize) :
    ∃ mem', shared.enter? mem address args = some mem' ∧
      mem'.Holds sp (address :: savedRegisters.map fun base => mem.read base.cell) ∧
      mem'.read 0 = sp + 5 ∧ mem'.read Base.lcl.cell = sp + 5 ∧ mem'.read Base.arg.cell = sp - args ∧
      ∀ a, a ∉ [0, Base.lcl.cell, Base.arg.cell] →
        (a.toNat < sp.toNat ∨ sp.toNat + 5 ≤ a.toNat) → mem'.read a = mem.read a := by
  have hsize : ramSize = 32768 := rfl
  have hsucc := Word.toNat_succ (show sp.toNat < ramSize by omega)
  have hlen : savedRegisters.length = 4 := rfl
  obtain ⟨pushed, hpush, hpushed, htop, hkeep⟩ := Memory.push?_spec address hsp (by omega) (by omega)
  obtain ⟨saved, hfold, hsaved, hholds, hkeep'⟩ :=
    saves_spec savedRegisters hpushed (by omega) (by omega)
  have hend : saved.read 0 = sp + 5 := hsaved.trans (UInt16.add_assoc sp 1 4)
  have hargs : saved.read 0 - 5 - args = sp - args := by
    rw [hend, UInt16.add_sub_cancel]
  rw [Memory.read_bases hlow hkeep] at hholds
  refine ⟨(saved.write Base.arg.cell (sp - args)).write Base.lcl.cell (sp + 5), ?_, ?_, ?_, ?_, ?_, ?_⟩
  · simp only [enter?, hpush, hfold, Option.bind_eq_bind, Option.bind_some, hargs]
    rw [Memory.read_write_ne (by decide), hend]
    rfl
  · have hall : saved.Holds sp (address :: savedRegisters.map fun base => mem.read base.cell) := by
      refine ⟨?_, hholds⟩
      rw [hkeep' sp (Word.ne_of_lt (n := 16) (by decide) hlow).symm (by omega), htop]
    refine Memory.Holds.of_agree (n := 16) (fun a ha => ?_) hlow hhigh hall
    rw [Memory.read_write_ne (Word.ne_of_lt (n := 16) (by decide) ha),
      Memory.read_write_ne (Word.ne_of_lt (n := 16) (by decide) ha)]
  · rw [Memory.read_write_ne (by decide), Memory.read_write_ne (by decide), hend]
  · exact Memory.read_write_base _ _ _
  · rw [Memory.read_write_ne (by decide), Memory.read_write_base]
  · intro a ha hfar
    simp only [List.mem_cons, List.not_mem_nil, or_false, not_or] at ha
    rw [Memory.read_write_ne (Ne.symm ha.2.1), Memory.read_write_ne (Ne.symm ha.2.2),
      hkeep' a ha.1 (by omega), hkeep a ha.1]
    rintro rfl
    omega

theorem restores_spec (aside : Word) (places : List (Base × Word)) {mem : Memory} {frame : Word}
    (hframe : mem.read 13 = frame) (hnodup : (places.map Prod.fst).Nodup)
    (hplace : ∀ p ∈ places, 16 ≤ (frame - p.2).toNat ∧ (frame - p.2).toNat < ramSize) :
    ∃ mem', places.foldlM (shared.restore? aside) mem = some mem' ∧
      (∀ p ∈ places, mem'.read p.1.cell = mem.read (frame - p.2)) ∧
      ∀ a, (∀ p ∈ places, a ≠ p.1.cell) → mem'.read a = mem.read a := by
  induction places generalizing mem with
  | nil => exact ⟨mem, rfl, by simp, fun _ _ => rfl⟩
  | cons place places ih =>
    have hcell (p : Base × Word) : p.1.cell.toNat < 13 := by
      cases p.1 <;> decide
    rw [List.map_cons, List.nodup_cons] at hnodup
    obtain ⟨hp, hplaces⟩ := List.forall_mem_cons.1 hplace
    have hrestore : shared.restore? aside mem place =
        some (mem.write place.1.cell (mem.read (frame - place.2))) := by
      rw [restore?, shared_held, hframe, shared_load?, Memory.load?_of_lt hp.2, Option.map_some]
    have hne : place.1.cell ≠ 13 := by
      cases place.1 <;> decide
    obtain ⟨mem', hfold, hread, hkeep⟩ := ih ((Memory.read_write_ne hne).trans hframe) hnodup.2 hplaces
    refine ⟨mem', ?_, ?_, ?_⟩
    · rw [List.foldlM_cons, hrestore]
      exact hfold
    · rintro p (_ | ⟨_, hp'⟩)
      · rw [hkeep, Memory.read_write_base]
        rintro q hq heq
        exact hnodup.1 (Base.cell_injective heq ▸ List.mem_map_of_mem hq)
      · rw [hread p hp', Memory.read_write_ne]
        exact Word.ne_of_lt (n := 13) (hcell _) (by have := hplaces p hp'; omega)
    · intro a ha
      obtain ⟨ha, ha'⟩ := List.forall_mem_cons.1 ha
      rw [hkeep a ha', Memory.read_write_ne ha.symm]

/-- A return gives the word at the bottom of the frame, puts the top of the stack in the place of the
first argument and restores the base registers. -/
theorem leave?_spec {mem : Memory} {frame cell top : Word} (hlcl : mem.read Base.lcl.cell = frame)
    (harg : mem.read Base.arg.cell = cell) (htop : mem.read 0 - 1 = top)
    (hframe : ∀ k : Word, 1 ≤ k.toNat → k.toNat ≤ 5 →
      16 ≤ (frame - k).toNat ∧ (frame - k).toNat < ramSize)
    (hcell : 16 ≤ cell.toNat ∧ cell.toNat < ramSize) (htop' : 16 ≤ top.toNat ∧ top.toNat < ramSize)
    (hapart : ∀ k : Word, 1 ≤ k.toNat → k.toNat ≤ 4 → frame - k ≠ cell) :
    ∃ mem', shared.leave? mem = some (mem.read (frame - 5), mem') ∧ mem'.read 0 = cell + 1 ∧
      mem'.read cell = mem.read top ∧
      (∀ p ∈ restoreOrder, mem'.read p.1.cell = mem.read (frame - p.2)) ∧
      ∀ a, a ∉ [0, 1, 2, 3, 4, 13, 14, cell] → mem'.read a = mem.read a := by
  have hlow {a c : Word} (ha : 16 ≤ a.toNat) (hc : c.toNat < 16) : c ≠ a := Word.ne_of_lt hc ha
  have hoffset : ∀ p ∈ restoreOrder, 1 ≤ p.2.toNat ∧ p.2.toNat ≤ 4 := by decide
  have hbottom := hframe 5 (by decide) (by decide)
  -- the memory once the two words are set aside, and once the result is stored
  let held := (mem.write 13 frame).write 14 (mem.read (frame - 5))
  let stored := ((held.write 0 top).write cell (mem.read top)).write 0 (cell + 1)
  have hheld {a : Word} (h13 : a ≠ 13) (h14 : a ≠ 14) : held.read a = mem.read a := by
    rw [Memory.read_write_ne h14.symm, Memory.read_write_ne h13.symm]
  have hstored {a : Word} (h0 : a ≠ 0) (hc : a ≠ cell) : stored.read a = held.read a := by
    rw [Memory.read_write_ne h0.symm, Memory.read_write_ne hc.symm, Memory.read_write_ne h0.symm]
  have hpop : shared.pop? held = some (mem.read top, held.write 0 top) := by
    have hsp : held.read 0 - 1 = top := by
      rw [hheld (by decide) (by decide), htop]
    rw [Memory.pop?_of_top hsp (Nat.le_trans (by decide) htop'.1) htop'.2,
      hheld (hlow htop'.1 (by decide)).symm (hlow htop'.1 (by decide)).symm]
  have hargs : (held.write 0 top).read Base.arg.cell = cell := by
    rw [Memory.read_write_ne (by decide), hheld (by decide) (by decide), harg]
  have hkept : stored.read 13 = frame := by
    rw [hstored (by decide) (hlow hcell.1 (by decide)), Memory.read_write_ne (by decide),
      Memory.read_write_self (by decide)]
  have hplaces (p : Base × Word) (hp : p ∈ restoreOrder) :=
    hframe p.2 (hoffset p hp).1 (Nat.le_succ_of_le (hoffset p hp).2)
  obtain ⟨mem', hfold, hread, hkeep⟩ := restores_spec frame restoreOrder hkept (by decide) hplaces
  refine ⟨mem', ?_, ?_, ?_, ?_, ?_⟩
  · have haddress : (shared.hold mem 13 frame).load? (frame - 5) = some (mem.read (frame - 5)) := by
      change (mem.write 13 frame).load? (frame - 5) = _
      rw [Memory.load?_of_lt hbottom.2, Memory.read_write_ne (hlow hbottom.1 (by decide))]
    have hlast : mem'.read 14 = mem.read (frame - 5) := by
      rw [hkeep 14 (by decide), hstored (by decide) (hlow hcell.1 (by decide)),
        Memory.read_write_self (by decide)]
    have hnext : ((held.write 0 top).write cell (mem.read top)).read Base.arg.cell = cell := by
      rw [Memory.read_write_ne (hlow hcell.1 (by decide)).symm, hargs]
    simp only [leave?, hlcl, shared_held, shared_load?, shared_store?, haddress,
      Option.bind_eq_bind, Option.bind_some]
    change (shared.pop? held).bind _ = _
    simp only [hpop, Option.bind_some, hargs, Memory.store?_of_lt _ hcell.2, hnext]
    change (restoreOrder.foldlM (shared.restore? frame) stored).bind _ = _
    simp only [hfold, Option.bind_some, hlast, Option.pure_def]
  · rw [hkeep 0 (by decide), Memory.read_write_self (by decide)]
  · rw [hkeep cell fun p hp => (hlow hcell.1 (by cases p.1 <;> decide)).symm,
      Memory.read_write_ne (hlow hcell.1 (by decide)), Memory.read_write_self hcell.2]
  · intro p hp
    have hplace := (hplaces p hp).1
    rw [hread p hp,
      hstored (hlow hplace (by decide)).symm (hapart p.2 (hoffset p hp).1 (hoffset p hp).2),
      hheld (hlow hplace (by decide)).symm (hlow hplace (by decide)).symm]
  · intro a ha
    simp only [List.mem_cons, List.not_mem_nil, or_false, not_or] at ha
    obtain ⟨h0, h1, h2, h3, h4, h13, h14, hc⟩ := ha
    rw [hkeep a, hstored h0 hc, hheld h13 h14]
    intro p hp
    cases p.1 <;> assumption

end Access

namespace Machine

/-- A jump behind a computation does not halt the machine. -/
theorem isHaltLoop_compute {rom : Array Word} {table : SymbolTable} {code : List Statement}
    {pc a : Word} {c : Compute} (hcode : CodeAt rom table pc (.compute c :: code))
    (ha : a.toNat < 32768) : isHaltLoop rom (pc + 1) a = false := by
  obtain ⟨⟨w, hw, hrom⟩, -⟩ := hcode
  cases hw
  by_cases h : a = pc
  · have hne : (Instruction.compute c).encode ≠ a := by
      intro heq
      have hfirst := Instruction.compute_first c
      rw [heq, ← Word.literal_and (Nat.le_of_lt_succ ha), UInt16.and_assoc,
        show (0x7FFF &&& 0x8000 : Word) = 0 from rfl, UInt16.and_zero] at hfirst
      exact absurd hfirst (by decide)
    subst h
    simp [isHaltLoop, hrom, hne]
  · simp [isHaltLoop, h]

/-- A call that saves its frame arrives at its target. -/
theorem arrives_call {table : SymbolTable} {target returnTo : String} {args t r : Word} {m : Machine}
    {mem : Memory} (hrun : m.status = .running)
    (hcode : CodeAt m.rom table m.pc (call target args returnTo))
    (hargs : args.toNat ≤ Word.maxLiteral) (htarget : table.address? target = some t)
    (hreturn : table.address? returnTo = some r)
    (henter : shared.enter? m.ram (r &&& 0x7FFF) args = some mem) :
    m.Arrives (t &&& 0x7FFF) mem
      (if t &&& 0x7FFF = m.pc + 47 then .halted else .running) := by
  obtain ⟨hframe, hjump⟩ := codeAt_append.1 (show CodeAt m.rom table m.pc
    (callFrame args returnTo ++ [.symbol target, goto, .label returnTo]) from hcode)
  have hfalls : ∀ i ∈ callFrame args returnTo, i.falls := List.all_eq_true.1 rfl
  have hmem := (exec_callFrame table m.core hargs hreturn).trans henter
  refine (arrives_exec hrun hframe hfalls hmem).followed fun u hrom hpc hram hstatus => ?_
  have hgoto := arrives_goto hstatus (by rw [hrom, hpc]; exact hjump) htarget
  rw [hram, hpc] at hgoto
  exact hgoto

/-- A return that finds a frame arrives at the return address. -/
theorem arrives_ret {table : SymbolTable} {m : Machine} {address : Word} {mem : Memory}
    (hrun : m.status = .running) (hcode : CodeAt m.rom table m.pc ret) (hlt : address.toNat < 32768)
    (hleave : shared.leave? m.ram = some (address, mem)) :
    m.Arrives address mem .running := by
  obtain ⟨hframe, hjump⟩ := codeAt_append.1 (show CodeAt m.rom table m.pc (retFrame ++ [goto]) from
    (by simpa [ret, retFrame] using hcode))
  obtain ⟨s, hs, heq⟩ := Option.map_eq_some_iff.1 ((exec_retFrame table m.core).trans hleave)
  cases heq
  have hlast : CodeAt m.rom table (m.pc + 48) [assign .toA (.y .m)] :=
    (codeAt_append.1 (show CodeAt m.rom table m.pc (retFrame.dropLast ++ [assign .toA (.y .m)])
      from hframe)).2
  have hpc : m.pc + 49 = m.pc + 48 + 1 := (UInt16.add_assoc m.pc 48 1).symm
  have hloop : isHaltLoop m.rom (m.pc + (codeSize retFrame).toUInt16) s.a = false := by
    change isHaltLoop m.rom (m.pc + 49) s.a = false
    rw [hpc]
    exact isHaltLoop_compute hlast hlt
  have hfalls : ∀ i ∈ retFrame, i.falls := by
    decide
  obtain ⟨⟨w, hw, hrom⟩, -⟩ := hjump
  cases hw
  have hstep := step_branch (m := m.past s (codeSize retFrame)) hrun rfl hrom
  refine ⟨_, (reaches_exec hrun hframe hfalls hs).trans (.single hstep), rfl, rfl,
    rfl, ?_⟩
  simp [past, hloop]

/-- A machine at the start of a function that another machine has called, with `sp` the caller's stack
pointer. -/
structure Called (caller callee : Machine) (target address args sp : Word) : Prop where
  program : callee.rom = caller.rom
  position : callee.pc = target
  /-- A call of its own jump is the only one that halts. -/
  status : callee.status = if target = caller.pc + 47 then .halted else .running
  frame : callee.ram.Holds sp (address :: savedRegisters.map fun base => caller.ram.read base.cell)
  stack : callee.ram.read 0 = sp + 5
  locals : callee.ram.read Base.lcl.cell = sp + 5
  arguments : callee.ram.read Base.arg.cell = sp - args
  unchanged : ∀ a, a ∉ [0, Base.lcl.cell, Base.arg.cell] →
    (a.toNat < sp.toNat ∨ sp.toNat + 5 ≤ a.toNat) → callee.ram.read a = caller.ram.read a

structure Returning (caller callee : Machine) (table : SymbolTable) (address args sp value : Word) :
    Prop where
  running : callee.status = .running
  code : CodeAt callee.rom table callee.pc ret
  frame : callee.ram.Holds sp (address :: savedRegisters.map fun base => caller.ram.read base.cell)
  locals : callee.ram.read Base.lcl.cell = sp + 5
  arguments : callee.ram.read Base.arg.cell = sp - args
  top : 16 ≤ (callee.ram.read 0 - 1).toNat ∧ (callee.ram.read 0 - 1).toNat < ramSize
  result : callee.ram.read (callee.ram.read 0 - 1) = value

structure Returned (caller callee back : Machine) (address args sp value : Word) : Prop where
  program : back.rom = callee.rom
  position : back.pc = address
  running : back.status = .running
  stack : back.ram.read 0 = sp - args + 1
  result : back.ram.read (sp - args) = value
  registers : ∀ base : Base, back.ram.read base.cell = caller.ram.read base.cell
  unchanged : ∀ a, a ∉ [0, 1, 2, 3, 4, 13, 14, sp - args] → back.ram.read a = callee.ram.read a

theorem exists_returned {caller callee : Machine} {table : SymbolTable} {address args sp value : Word}
    (haddress : address.toNat < romSize) (hlow : args.toNat + 16 ≤ sp.toNat)
    (hhigh : sp.toNat + 5 ≤ ramSize) (h : Returning caller callee table address args sp value) :
    ∃ back, Reaches callee back ∧ Returned caller callee back address args sp value := by
  have hsize : ramSize = 32768 := rfl
  have hplace (k : Word) (hk : k.toNat ≤ 5) : (sp + 5 - k).toNat = sp.toNat + 5 - k.toNat := by
    have hfive : (sp + 5).toNat = sp.toNat + 5 := by
      have : (5 : Word).toNat = 5 := rfl
      rw [UInt16.toNat_add]
      omega
    rw [UInt16.toNat_sub_of_le _ _ (by rw [UInt16.le_iff_toNat_le]; omega), hfive]
  have hcell : (sp - args).toNat = sp.toNat - args.toNat :=
    UInt16.toNat_sub_of_le _ _ (by rw [UInt16.le_iff_toNat_le]; omega)
  obtain ⟨mem, hleave, hstack, hresult, hregisters, hkeep⟩ :=
    Access.leave?_spec h.locals h.arguments rfl
      (fun k h1 h5 => by rw [hplace k h5]; omega) (by omega) h.top
      (fun k h1 h4 heq => by
        have := congrArg UInt16.toNat heq
        rw [hplace k (by omega)] at this
        omega)
  rw [UInt16.add_sub_cancel, h.frame.1] at hleave
  obtain ⟨back, hreach, hrom, hpc, rfl, hstatus⟩ := arrives_ret h.running h.code haddress hleave
  refine ⟨back, hreach, hrom, hpc, hstatus, hstack, hresult.trans h.result, ?_, hkeep⟩
  intro base
  obtain ⟨p, hp, rfl⟩ : ∃ p ∈ restoreOrder, p.1 = base := by cases base <;> decide
  rw [hregisters p hp, Memory.read_frame h.frame p hp]

/-- A call arrives at its target with the caller's frame on the stack, and a return from any later state
that still has the frame arrives behind the call with the caller's registers. -/
theorem call_return_round_trip {caller : Machine} {table : SymbolTable} {target returnTo : String}
    {args sp t r : Word} (htarget : table.address? target = some t) (ht : t.toNat < romSize)
    (hreturn : table.address? returnTo = some r) (hr : r.toNat < romSize)
    (hargs : args.toNat ≤ Word.maxLiteral) (hlow : args.toNat + 16 ≤ sp.toNat)
    (hhigh : sp.toNat + 5 ≤ ramSize) (hrun : caller.status = .running)
    (hcode : CodeAt caller.rom table caller.pc (call target args returnTo))
    (hsp : caller.ram.read 0 = sp) :
    (∃ callee, Reaches caller callee ∧ Called caller callee t r args sp) ∧
      ∀ later value, Returning caller later table r args sp value →
        ∃ back, Reaches later back ∧ Returned caller later back r args sp value := by
  refine ⟨?_, fun later value h => exists_returned hr hlow hhigh h⟩
  obtain ⟨mem, henter, hframe, hstack, hlocals, harguments, hkeep⟩ :=
    Access.enter?_spec (r &&& 0x7FFF) args hsp (by omega) hhigh
  obtain ⟨callee, hreach, hrom, hpc, rfl, hstatus⟩ :=
    arrives_call hrun hcode hargs htarget hreturn henter
  rw [Word.literal_and (Nat.le_of_lt_succ hr)] at hframe
  rw [Word.literal_and (Nat.le_of_lt_succ ht)] at hpc hstatus
  exact ⟨callee, hreach, hrom, hpc, hstatus, hframe, hstack, hlocals, harguments, hkeep⟩

section Sample

def sampleCode : List Statement :=
  call "Main.f" 0 "Main.f$ret.0" ++ ([.symbol "Main.f$ret.0", goto, .label "Main.f"] ++ ret)

def sampleCaller (words : Array Word) : Machine where
  rom := words
  ram := ((((Memory.zero.write 0 300).write 1 5).write 2 6).write 3 7).write 4 8
  status := .running

theorem exists_sample : ∃ p : Program, p.Assembles sampleCode := by
  have hbind : Bindable sampleCode := by
    have hnames : labelNames sampleCode = ["Main.f$ret.0", "Main.f"] := rfl
    rw [Bindable, hnames]
    decide
  have hwritable : ∀ line ∈ sampleCode.map Line.statement, line.Writable := by
    have h : ∀ s ∈ sampleCode, s.Writable := by decide
    exact List.forall_mem_map.2 h
  have hsize : codeSize sampleCode = 101 := rfl
  obtain ⟨p, hp⟩ := exists_assemble_render hwritable (by rwa [statements_map])
    (by rw [statements_map, hsize]; decide)
  have hassembles := assembles_render hwritable hp
  rw [statements_map] at hassembles
  exact ⟨p, hassembles⟩

theorem call_return_round_trip_sample : ∃ p : Program, p.Assembles sampleCode ∧
    ∃ callee back, Reaches (sampleCaller p.words) callee ∧ callee.pc = 51 ∧ Reaches callee back ∧
      back.pc = 49 ∧ back.ram.read 0 = 301 ∧ back.ram.read 300 = 8 ∧
      ∀ base : Base, back.ram.read base.cell = base.cell + 4 := by
  obtain ⟨p, hp⟩ := exists_sample
  have hreturn : p.symbols.address? "Main.f$ret.0" = some 49 :=
    hp.labels (callFrame 0 "Main.f$ret.0" ++ [.symbol "Main.f", goto]) _ _ rfl
  have htarget : p.symbols.address? "Main.f" = some 51 :=
    hp.labels (call "Main.f" 0 "Main.f$ret.0" ++ [.symbol "Main.f$ret.0", goto]) _ ret rfl
  obtain ⟨hcall, htail⟩ := codeAt_append.1 hp.placed
  have hread (base : Base) : (sampleCaller p.words).ram.read base.cell = base.cell + 4 := by
    cases base <;> simp [sampleCaller, Memory.read_write, Base.cell, ramSize]
  obtain ⟨⟨callee, hreach, hcalled⟩, hback⟩ :=
    @call_return_round_trip (sampleCaller p.words) p.symbols "Main.f" "Main.f$ret.0" 0 300 51 49
      htarget (by decide) hreturn (by decide) (by decide) (by decide) (by decide) rfl hcall
      (by simp [sampleCaller, Memory.read_write, ramSize])
  have hret : CodeAt callee.rom p.symbols callee.pc ret := by
    rw [hcalled.program, hcalled.position]
    exact (codeAt_append.1 htail).2
  obtain ⟨back, hreach', hreturned⟩ := hback callee 8
    ⟨hcalled.status, hret, hcalled.frame, hcalled.locals, hcalled.arguments,
      by rw [hcalled.stack]; decide,
      by rw [hcalled.stack]; exact (hcalled.frame.2.2.2.2.1).trans (hread .that)⟩
  exact ⟨p, hp, callee, back, hreach, hcalled.position, hreach', hreturned.position, hreturned.stack,
    hreturned.result, fun base => (hreturned.registers base).trans (hread base)⟩

end Sample

end Machine

end HackStack
