import HackStack.Proofs.Bindings
import HackStack.Proofs.Rendering

set_option autoImplicit false

/-! # Passages through fragments

A machine that stands before a fragment of its program takes steps inside the fragment until it is out
of it or until an instruction uses a cell that does not exist. A fragment without jumps is left at its
end, with the effect of its code, and a machine is stranded in it exactly if the code has no effect. -/

namespace HackStack.Machine

open Assembly

def Inside (start : Word) (size : Nat) (pc : Word) : Prop :=
  start.toNat ≤ pc.toNat ∧ pc.toNat < start.toNat + size

structure AtFragment (m : Machine) (p : Program) (fragment : List Statement) : Prop where
  running : m.status = .running
  rom : m.rom = p.words
  placed : ∃ source lines before after, assemble source = .ok p ∧ read source = .ok lines ∧
    lines.map (·.statement) = before ++ (fragment ++ after) ∧ m.pc.toNat = codeSize before

def Leaves (m : Machine) (fragment : List Statement) (u : Machine) : Prop :=
  Stays (Inside m.pc (codeSize fragment)) m u ∧ ¬ Inside m.pc (codeSize fragment) u.pc

/-- Steps inside a fragment bring a machine to an instruction of it that uses a cell that does not
exist. -/
def Strands (m : Machine) (fragment : List Statement) : Prop :=
  ∃ u, Stays (Inside m.pc (codeSize fragment)) m u ∧ Inside m.pc (codeSize fragment) u.pc ∧
    ramSize ≤ u.a.toNat ∧ u.step = .error (.outOfBounds u.a u.pc)

structure Behind (m : Machine) (fragment : List Statement) (u : Machine) : Prop where
  running : u.status = .running
  rom : u.rom = m.rom
  pc : u.pc.toNat = m.pc.toNat + codeSize fragment

/-- Code that can be written down and bound has a program, and every fragment of it can be run there. -/
theorem exists_atFragment {code : List Statement} (hwritable : ∀ i ∈ code, i.Writable)
    (hbind : Bindable code) (hsize : codeSize code ≤ romSize) :
    ∃ p, ∀ (before fragment after : List Statement) (m : Machine),
      code = before ++ (fragment ++ after) → m.status = .running → m.rom = p.words →
      m.pc.toNat = codeSize before → m.AtFragment p fragment := by
  have hlines : ∀ line ∈ code.map Line.statement, line.Writable := List.forall_mem_map.2 hwritable
  obtain ⟨lines, hread, hstatements⟩ := read_render hlines
  obtain ⟨p, hp⟩ := exists_assemble_render hlines (by rwa [statements_map]) (by rwa [statements_map])
  rw [statements_map] at hstatements
  exact ⟨p, fun before fragment after m hcode hrun hrom hpc =>
    ⟨hrun, hrom, _, lines, before, after, hp, hread, hstatements.trans hcode, hpc⟩⟩

variable {P : Word → Prop} {m u v : Machine} {fragment : List Statement}

theorem Stays.linear (h : Stays P m u) (h' : Stays P m v) : Stays P u v ∨ Stays P v u := by
  induction h with
  | refl _ => exact .inl h'
  | next hpc hstep tail ih =>
    cases h' with
    | refl _ => exact .inr (.next hpc hstep tail)
    | next _ hstep' tail' =>
      cases hstep.symm.trans hstep'
      exact ih tail'

theorem Stays.eq_of_outside (h : Stays P m u) (hout : ¬ P m.pc) : u = m := by
  cases h with
  | refl _ => rfl
  | next hpc _ _ => exact absurd hpc hout

theorem Stays.eq_of_refused {fault : Fault} (h : Stays P m u) (hfault : m.step = .error fault) :
    u = m := by
  cases h with
  | refl _ => rfl
  | next _ hstep _ => cases hfault.symm.trans hstep

theorem Leaves.unique (h : m.Leaves fragment u) (h' : m.Leaves fragment v) : u = v := by
  rcases h.1.linear h'.1 with hstays | hstays
  · exact (hstays.eq_of_outside h.2).symm
  · exact hstays.eq_of_outside h'.2

theorem Strands.not_leaves (h : m.Strands fragment) : ¬ m.Leaves fragment u := by
  rintro ⟨hstays, hout⟩
  obtain ⟨v, hv, hinside, -, hfault⟩ := h
  rcases hv.linear hstays with htail | htail
  · apply hout
    rw [htail.eq_of_refused hfault]
    exact hinside
  · apply hout
    rw [← htail.eq_of_outside hout]
    exact hinside

section Addresses

variable {start : Word} {size j : Nat} (hfits : start.toNat + size ≤ 32768)
include hfits

theorem toNat_add_offset (hj : j ≤ size) : (start + j.toUInt16).toNat = start.toNat + j := by
  have hsmall : j.toUInt16.toNat = j := UInt16.toNat_ofNat_of_lt' (by
    have hsize : UInt16.size = 65536 := rfl
    omega)
  rw [UInt16.toNat_add, hsmall]
  omega

theorem inside_offset (hj : j < size) : Inside start size (start + j.toUInt16) := by
  have hpc := toNat_add_offset hfits (Nat.le_of_lt hj)
  constructor <;> omega

end Addresses

/-- Code without jumps that has no effect brings a machine to an instruction that is refused. -/
theorem stays_refused {table : SymbolTable} {code : List Statement} (hrun : m.status = .running)
    (hcode : CodeAt m.rom table m.pc code) (hfalls : ∀ i ∈ code, i.falls)
    (hplace : ∀ j, j < codeSize code → P (m.pc + j.toUInt16)) (hnone : exec table code m.core = none) :
    ∃ u, Stays P m u ∧ P u.pc ∧ ramSize ≤ u.a.toNat ∧
      u.step = .error (.outOfBounds u.a u.pc) := by
  induction code generalizing m with
  | nil => cases hnone
  | cons i code ih =>
    obtain ⟨hi, htail⟩ := List.forall_mem_cons.1 hfalls
    by_cases hw : i.isInstruction
    · rw [codeSize_cons, if_pos hw] at hplace
      obtain ⟨hfirst, hnext⟩ := forall_places_succ hplace
      cases heffect : i.effect? table m.core with
      | some s =>
        have hstep := step_statement hrun hcode hw hi heffect
        simp only [CodeAt, if_pos hw] at hcode
        rw [exec, heffect, Option.bind_some] at hnone
        obtain ⟨u, hstays, hu⟩ := ih (m := m.past s 1) hrun hcode.2 htail hnext hnone
        exact ⟨u, .next hfirst hstep hstays, hu⟩
      | none =>
        -- A symbol in the program is bound, so only a computation can be without an effect.
        simp only [CodeAt, if_pos hw] at hcode
        obtain ⟨⟨w, hword, hrom⟩, -⟩ := hcode
        cases i with
        | label name => cases hw
        | value v => cases heffect
        | symbol name =>
          obtain ⟨a, ha, -⟩ := Option.map_eq_some_iff.1 hword
          simp [Statement.effect?, ha] at heffect
        | compute c =>
          cases hword
          have hout : c.usesMemory ∧ ramSize ≤ m.a.toNat := by
            by_contra hin
            rw [Statement.effect?, Compute.effect?,
              if_neg (show ¬ (_ ∧ ramSize ≤ m.core.a.toNat) from hin)] at heffect
            cases heffect
          exact ⟨m, .refl m, hfirst, hout.2, step_refused hrun hrom hout⟩
    · simp only [CodeAt, if_neg hw] at hcode
      rw [codeSize_cons, if_neg hw, Nat.add_zero] at hplace
      have hsame : i.effect? table m.core = some m.core := by
        cases i with
        | label name => rfl
        | _ => exact absurd rfl hw
      rw [exec, hsame, Option.bind_some] at hnone
      exact ih hrun hcode htail hplace hnone

namespace AtFragment

variable {p : Program} (h : m.AtFragment p fragment)
include h

theorem binds : ∃ before after, p.Binds (before ++ (fragment ++ after)) ∧
    m.pc.toNat = codeSize before := by
  obtain ⟨source, lines, before, after, hp, hread, hcode, hpc⟩ := h.placed
  obtain ⟨lines', hread', hbinds⟩ := binds_of_assemble hp
  cases hread.symm.trans hread'
  exact ⟨before, after, hcode ▸ hbinds, hpc⟩

theorem fits : m.pc.toNat + codeSize fragment ≤ 32768 := by
  obtain ⟨before, after, hbinds, hpc⟩ := h.binds
  have hfits := hbinds.fits
  rw [codeSize_append, codeSize_append] at hfits
  have hsize : romSize = 32768 := rfl
  omega

theorem codeAt : CodeAt m.rom p.symbols m.pc fragment := by
  obtain ⟨before, after, hbinds, hpc⟩ := h.binds
  have hplaced := hbinds.placed
  rw [codeAt_append, UInt16.zero_add, codeAt_append, ← hpc] at hplaced
  rw [h.rom]
  simpa using hplaced.2.1

theorem symbol_bound {name : String} (hname : .symbol name ∈ fragment) :
    ∃ a, p.symbols.address? name = some a := by
  obtain ⟨xs, ys, hfragment⟩ := List.append_of_mem hname
  have hcode := h.codeAt
  rw [hfragment, codeAt_append] at hcode
  obtain ⟨⟨w, hword, -⟩, -⟩ := hcode.2
  obtain ⟨a, ha, -⟩ := Option.map_eq_some_iff.1 hword
  exact ⟨a, ha⟩

theorem label_address {xs ys : List Statement} {name : String}
    (hfragment : fragment = xs ++ .label name :: ys) :
    p.symbols.address? name = some (m.pc + (codeSize xs).toUInt16) := by
  obtain ⟨before, after, hbinds, hpc⟩ := h.binds
  rw [hbinds.labels (before ++ xs) name (ys ++ after) (by rw [hfragment]; simp), codeSize_append,
    ← hpc, Nat.toUInt16_eq, UInt16.ofNat_add, UInt16.ofNat_toNat]

variable (hfalls : ∀ i ∈ fragment, i.falls)
include hfalls

theorem leaves_exec {mem : Memory}
    (hmem : (exec p.symbols fragment m.core).map Core.ram = some mem) :
    ∃ u, m.Leaves fragment u ∧ m.Behind fragment u ∧ u.ram = mem := by
  obtain ⟨u, hstays, hrom, hpc, hram, hrun⟩ :=
    arrivesOver_exec h.running h.codeAt hfalls (fun _ => inside_offset h.fits) hmem
  have hend : u.pc.toNat = m.pc.toNat + codeSize fragment := by
    rw [hpc, toNat_add_offset h.fits (Nat.le_refl _)]
  refine ⟨u, ⟨hstays, ?_⟩, ⟨hrun, hrom, hend⟩, hram⟩
  rintro ⟨-, hlt⟩
  omega

theorem strands_exec (hnone : (exec p.symbols fragment m.core).map Core.ram = none) :
    m.Strands fragment := by
  rw [Option.map_eq_none_iff] at hnone
  exact stays_refused h.running h.codeAt hfalls (fun _ => inside_offset h.fits) hnone

end AtFragment

end HackStack.Machine
