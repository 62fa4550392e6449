import HackStack.Proofs.Operations
import HackStack.Proofs.Segments

set_option autoImplicit false

namespace HackStack

open Assembly Lowering Access

theorem Access.zeros?_spec (n : Nat) {mem : Memory} {sp : Word} (hsp : mem.read 0 = sp)
    (hlow : 1 ≤ sp.toNat) (hhigh : sp.toNat + n ≤ ramSize) :
    ∃ mem', shared.zeros? n mem = some mem' ∧ (mem'.read 0).toNat = sp.toNat + n ∧
      (∀ a : Word, sp.toNat ≤ a.toNat → a.toNat < sp.toNat + n → mem'.read a = 0) ∧
      ∀ a : Word, a ≠ 0 → (a.toNat < sp.toNat ∨ sp.toNat + n ≤ a.toNat) →
        mem'.read a = mem.read a := by
  induction n generalizing mem sp with
  | zero =>
    refine ⟨mem, rfl, congrArg UInt16.toNat hsp, fun a hge hlt => ?_, fun _ _ _ => rfl⟩
    omega
  | succ n ih =>
    have hroom : sp.toNat < ramSize := by omega
    have hsucc := Word.toNat_succ hroom
    obtain ⟨next, hpush, hnext, htop, hkeep⟩ := Memory.push?_spec 0 hsp hlow hroom
    obtain ⟨mem', hzeros, hpointer, hcells, hkeep'⟩ := ih hnext (by omega) (by omega)
    refine ⟨mem', ?_, by omega, fun a hge hlt => ?_, fun a hzero hfar => ?_⟩
    · rw [zeros?, hpush]
      exact hzeros
    · -- the first of the cells is below those that the other pushes write to
      by_cases hfirst : a = sp
      · have hne : sp ≠ 0 := (Word.ne_of_lt (by decide) hlow).symm
        rw [hfirst, hkeep' sp hne (by omega), htop]
      · have hother : a.toNat ≠ sp.toNat := fun heq => hfirst (UInt16.toNat_inj.1 heq)
        exact hcells a (by omega) (by omega)
    · have hother : a ≠ sp := by
        rintro rfl
        omega
      rw [hkeep' a hzero (by omega), hkeep a hzero hother]

namespace Lowering

theorem function_falls (unit name : String) (locals : Word) :
    ∀ i ∈ function unit name locals, i.falls := by
  refine List.forall_mem_cons.2 ⟨rfl, fun i hi => ?_⟩
  obtain ⟨code, hcode, hi⟩ := List.mem_flatten.1 hi
  rw [List.eq_of_mem_replicate hcode] at hi
  exact push_falls unit .constant 0 i hi

theorem exec_function (table : SymbolTable) (unit name : String) (locals : Word) (s : Core) :
    (exec table (function unit name locals) s).map Core.ram =
      shared.zeros? locals.toNat s.ram :=
  exec_zeros table s unit locals.toNat

end Lowering

namespace Machine

/-- The code of a function declaration is left at its end. The locals are then zero and the stack ends
behind them; every other cell is as it was, the one with the address of the locals included. Lowering
the declaration has used a position for itself and one for each local. -/
theorem function_entry_zeroes (w : Writer) {name : String} {locals s : Word} {p : Program}
    {m : Machine} (h : m.AtFragment p (statements (w.command (.function name locals)).1))
    (hsp : m.ram.read 0 = s) (hlcl : m.ram.read 1 = s) (hlow : 16 ≤ s.toNat)
    (hhigh : s.toNat + locals.toNat ≤ 32768) :
    (∃ u, (∀ v, m.Leaves (statements (w.command (.function name locals)).1) v ↔ v = u) ∧
        m.Behind (statements (w.command (.function name locals)).1) u ∧
        (u.ram.read 0).toNat = s.toNat + locals.toNat ∧ u.ram.read 1 = s ∧
        (∀ a : Word, s.toNat ≤ a.toNat → a.toNat < s.toNat + locals.toNat → u.ram.read a = 0) ∧
        ∀ a : Word, a ≠ 0 → (a.toNat < s.toNat ∨ s.toNat + locals.toNat ≤ a.toNat) →
          u.ram.read a = m.ram.read a) ∧
      (w.command (.function name locals)).2.names.position =
        w.names.position + (locals.toNat + 1) := by
  have hcode : statements (w.command (.function name locals)).1 =
      function w.names.unit name locals := statements_map _
  rw [hcode] at h ⊢
  refine ⟨?_, rfl⟩
  obtain ⟨mem, hzeros, hpointer, hcells, hothers⟩ :=
    zeros?_spec locals.toNat hsp (by omega) hhigh
  obtain ⟨u, hleaves, hbehind, rfl⟩ := h.leaves_exec (function_falls w.names.unit name locals)
    ((exec_function p.symbols w.names.unit name locals m.core).trans hzeros)
  refine ⟨u, fun v => ⟨fun hv => hv.unique hleaves, ?_⟩, hbehind, hpointer, ?_, hcells, hothers⟩
  · rintro rfl
    exact hleaves
  · have hregister : (1 : Word).toNat = 1 := rfl
    rw [hothers 1 (by decide) (by omega), hlcl]

section Sample

/-- A function with as many locals as the store has room for the code of. -/
theorem exists_full_function : ∃ p, ∀ m : Machine, m.status = .running → m.rom = p.words →
    m.pc = 0 → m.AtFragment p (function "Main" "Main.f" 4681) := by
  have hunit : isSymbol "Main".toList := by decide
  have hcode : function "Main" "Main.f" 4681 = [.label "Main.f"] ++ zeroPushes 4681 := rfl
  have hwritable : ∀ i ∈ function "Main" "Main.f" 4681, i.Writable :=
    fragment_writable hunit 0 (c := .function "Main.f" 4681) (by decide)
  have hbind : Bindable (function "Main" "Main.f" 4681) := by
    rw [hcode, Bindable, labelNames_append, zeroPushes, labelNames_zeros]
    decide
  obtain ⟨p, hp⟩ := exists_atFragment hwritable hbind (by
    rw [hcode, codeSize_append, codeSize_zeroPushes]
    decide)
  refine ⟨p, fun m hrun hrom hpc => hp [] _ [] m ?_ hrun hrom ?_⟩
  · rw [List.append_nil, List.nil_append]
  · rw [hpc]
    rfl

/-- The locals of such a function take the last 4681 cells of the memory. The cell before them keeps its
word. -/
theorem function_entry_full : ∃ (p : Program) (m u : Machine),
    m.AtFragment p (function "Main" "Main.f" 4681) ∧ m.Leaves (function "Main" "Main.f" 4681) u ∧
    (u.ram.read 0).toNat = 32768 ∧ u.ram.read 28087 = 0 ∧ u.ram.read 32767 = 0 ∧
    m.ram.read 28086 = 7 ∧ u.ram.read 28086 = 7 ∧
    ((Writer.start {} "Main").command (.function "Main.f" 4681)).2.names.position = 4682 := by
  obtain ⟨p, hp⟩ := exists_full_function
  let mem : Memory := ((Memory.zero.write 28086 7).write 1 28087).write 0 28087
  have hsp : mem.read 0 = 28087 := Memory.read_write_self (by decide)
  have hlcl : mem.read 1 = 28087 := by
    rw [Memory.read_write_ne (by decide), Memory.read_write_self (by decide)]
  have hbelow : mem.read 28086 = 7 := by
    rw [Memory.read_write_ne (by decide), Memory.read_write_ne (by decide),
      Memory.read_write_self (by decide)]
  have h := hp ⟨p.words, mem, 0, 0, 0, .running, 0⟩ rfl rfl rfl
  have hcode : statements ((Writer.start {} "Main").command (.function "Main.f" 4681)).1 =
      function "Main" "Main.f" 4681 := statements_map _
  rw [← hcode] at h
  obtain ⟨⟨u, hleaves, -, hpointer, -, hcells, hothers⟩, hposition⟩ :=
    function_entry_zeroes (Writer.start {} "Main") h hsp hlcl (by decide) (by decide)
  rw [← hcode]
  exact ⟨p, _, u, h, (hleaves u).2 rfl, hpointer, hcells _ (by decide) (by decide),
    hcells _ (by decide) (by decide), hbelow, (hothers _ (by decide) (by decide)).trans hbelow,
    hposition⟩

end Sample

end Machine

end HackStack
