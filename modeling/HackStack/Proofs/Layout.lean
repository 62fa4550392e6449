import HackStack.Proofs.Fragments
import HackStack.Proofs.Generated

set_option autoImplicit false

namespace HackStack

open Assembly Lowering

/-- At most every second word of some code loads the address of a symbol. -/
def Sparse (code : List Statement) : Prop := 2 * symbolCount code ≤ codeSize code

theorem Sparse.append {xs ys : List Statement} (hx : Sparse xs) (hy : Sparse ys) :
    Sparse (xs ++ ys) := by
  have hcount : symbolCount (xs ++ ys) = symbolCount xs + symbolCount ys := List.countP_append
  have hsize := codeSize_append xs ys
  unfold Sparse at *
  omega

theorem Sparse.flatMap {α : Type} {f : α → List Statement} {xs : List α}
    (h : ∀ x ∈ xs, Sparse (f x)) : Sparse (xs.flatMap f) := by
  induction xs with
  | nil => exact Nat.le_refl 0
  | cons x xs ih =>
    obtain ⟨hx, hxs⟩ := List.forall_mem_cons.1 h
    exact hx.append (ih hxs)

theorem sparse_of_ble {code : List Statement} (h : (2 * symbolCount code).ble (codeSize code) = true) :
    Sparse code := Nat.le_of_ble_eq_true h

namespace Lowering

theorem sparse_push (unit : String) (segment : Segment) (index : Word) :
    Sparse (push unit segment index) := by
  cases segment <;> exact sparse_of_ble rfl

theorem sparse_pop (unit : String) (segment : Segment) (index : Word) :
    Sparse (pop unit segment index) := by
  cases segment <;> exact sparse_of_ble rfl

theorem sparse_call (target : String) (args : Word) (returnTo : String) :
    Sparse (call target args returnTo) := sparse_of_ble rfl

theorem sparse_fragment (unit : String) (position : Nat) (c : Command) :
    Sparse (fragment unit position c) := by
  cases c with
  | push segment index => exact sparse_push unit segment index
  | pop segment index => exact sparse_pop unit segment index
  | operate op => cases op <;> exact sparse_of_ble rfl
  | function name locals =>
    have hlabel : Sparse [.label name] := sparse_of_ble rfl
    refine hlabel.append ?_
    rw [← List.flatMap_id]
    refine Sparse.flatMap fun code hcode => ?_
    rw [id_eq, List.eq_of_mem_replicate hcode]
    exact sparse_push unit .constant 0
  | call name args => exact sparse_call name args _
  | label name | goto name | ifGoto name | ret => exact sparse_of_ble rfl

theorem sparse_programCode (options : Options) (withBootstrap : Bool) (units : List SourceUnit) :
    Sparse (programCode options withBootstrap units) := by
  refine Sparse.append ?_ (Sparse.flatMap fun s _ => sparse_fragment s.unit s.position s.command)
  cases withBootstrap with
  | false => exact Nat.le_refl 0
  | true => exact sparse_of_ble rfl

end Lowering

theorem Lowering.Site.code_of_declares {s : Site} {name : String}
    (h : s.command.declaredNames.contains name) : ∃ ys, s.code = [] ++ .label name :: ys := by
  obtain ⟨unit, position, ⟨c, location⟩⟩ := s
  cases c with
  | label other =>
    obtain rfl : name = other := by simpa [Site.command, Command.declaredNames] using h
    exact ⟨_, rfl⟩
  | function other locals =>
    obtain rfl : name = other := by simpa [Site.command, Command.declaredNames] using h
    exact ⟨_, rfl⟩
  | _ => cases h

theorem Lowering.Site.call_of_returnLabel? {s : Site} {label : String}
    (h : s.returnLabel? = some label) :
    ∃ name args, s.command = .call name args ∧ returnLabel name s.position = label := by
  unfold Site.returnLabel? at h
  split at h
  next name args hcall => exact ⟨name, args, hcall, Option.some.inj h⟩
  next => cases h

namespace StackMachine

namespace Code

variable (code : Code)

def before (i : Nat) : List Statement :=
  bootCode code.options code.withBootstrap ++ (code.sites.take i).flatMap Site.code

def after (i : Nat) : List Statement := (code.sites.drop i).flatMap Site.code

def all : List Statement := programCode code.options code.withBootstrap code.units

def offset (i : Nat) : Nat := codeSize (code.before i)

def romAddress (i : Nat) : Word := (code.offset i).toUInt16

theorem all_eq (i : Nat) : code.all = code.before i ++ code.after i := by
  rw [before, after, List.append_assoc, ← List.flatMap_append, List.take_append_drop]
  rfl

section Site

variable {code} {i : Nat} {s : Site} (hs : code.sites[i]? = some s)
include hs

theorem after_eq : code.after i = s.code ++ code.after (i + 1) := by
  obtain ⟨hi, rfl⟩ := List.getElem?_eq_some_iff.1 hs
  rw [after, List.drop_eq_getElem_cons hi, List.flatMap_cons]
  rfl

theorem before_succ : code.before (i + 1) = code.before i ++ s.code := by
  obtain ⟨hi, rfl⟩ := List.getElem?_eq_some_iff.1 hs
  rw [before, List.take_succ_eq_append_getElem hi, List.flatMap_append, ← List.append_assoc]
  simp [before]

theorem offset_succ : code.offset (i + 1) = code.offset i + codeSize s.code := by
  rw [offset, before_succ hs, codeSize_append, offset]

theorem romAddress_succ :
    code.romAddress (i + 1) = code.romAddress i + (codeSize s.code).toUInt16 := by
  simp only [romAddress, offset_succ hs, Nat.toUInt16_eq, UInt16.ofNat_add]

end Site

variable {code}

theorem offset_le (i : Nat) : code.offset i ≤ codeSize code.all := by
  rw [code.all_eq i, codeSize_append]
  exact Nat.le_add_right _ _

theorem offset_mono {i j : Nat} (h : i ≤ j) : code.offset i ≤ code.offset j := by
  obtain ⟨k, rfl⟩ := Nat.exists_eq_add_of_le h
  simp only [offset, before, codeSize_append, List.take_add, List.flatMap_append]
  omega

/-- The code of a command ends before the code of any later one. -/
theorem offset_add_le {i j : Nat} {s : Site} (hs : code.sites[i]? = some s) (hij : i < j) :
    code.offset i + codeSize s.code ≤ code.offset j := by
  rw [← offset_succ hs]
  exact offset_mono hij

/-- A program in the memory of the computer, with room for one more word. -/
structure Loaded (code : Code) (p : Program) : Prop where
  symbols : p.symbols = code.symbols
  assembles : p.Assembles code.all
  room : p.words.size < romSize
  commands : ∀ s ∈ code.sites, s.command.WellFormed
  stackBase : code.options.stackBase.toNat ≤ Word.maxLiteral

namespace Loaded

variable {p : Program} (h : code.Loaded p)
include h

theorem offset_lt (i : Nat) : code.offset i < romSize := by
  have hsize := h.assembles.size
  have hroom := h.room
  have hle := code.offset_le i
  omega

theorem toNat_romAddress (i : Nat) : (code.romAddress i).toNat = code.offset i :=
  UInt16.toNat_ofNat_of_lt' (Nat.lt_trans (h.offset_lt i) (by decide))

theorem romAddress_and (i : Nat) : code.romAddress i &&& 0x7FFF = code.romAddress i := by
  refine Word.literal_and ?_
  rw [h.toNat_romAddress]
  exact Nat.le_of_lt_succ (h.offset_lt i)

section Site

variable {i : Nat} {s : Site} (hs : code.sites[i]? = some s)
include hs

theorem codeAt_site : CodeAt p.words code.symbols (code.romAddress i) s.code := by
  have hplaced := h.assembles.placed
  rw [code.all_eq i, after_eq hs, h.symbols, codeAt_append, UInt16.zero_add] at hplaced
  exact (codeAt_append.1 hplaced.2).1

theorem address?_label {xs ys : List Statement} {name : String}
    (hcode : s.code = xs ++ .label name :: ys) :
    code.symbols.address? name = some (code.romAddress i + (codeSize xs).toUInt16) := by
  have hlabel := h.assembles.labels (code.before i ++ xs) name (ys ++ code.after (i + 1))
    (by rw [code.all_eq i, after_eq hs, hcode]; simp)
  rw [h.symbols, codeSize_append, Nat.toUInt16_eq, UInt16.ofNat_add] at hlabel
  exact hlabel

theorem wellFormed : s.command.WellFormed := h.commands s (List.mem_of_getElem? hs)

/-- The return label of a call is bound to the address of the next command. -/
theorem address?_return {name : String} {args : Word} (hcall : s.command = .call name args) :
    code.symbols.address? (returnLabel name s.position) = some (code.romAddress (i + 1)) := by
  have hcode : s.code = (callFrame args (returnLabel name s.position) ++
      [.symbol name, .goto]) ++ [.label (returnLabel name s.position)] := by
    rw [Site.code, hcall]
    simp [fragment, call, callFrame]
  rw [romAddress_succ hs, h.address?_label hs hcode, hcode, codeSize_append]
  rfl

end Site

/-- A declared name is bound to the address of the command that declares it. -/
theorem address?_target {name : String} {j : Nat} (ht : code.target? name = some j) :
    code.symbols.address? name = some (code.romAddress j) := by
  obtain ⟨hj, hdeclares, -⟩ := List.findIdx?_eq_some_iff_getElem.1 ht
  have hs : code.sites[j]? = some code.sites[j] := List.getElem?_eq_getElem hj
  obtain ⟨ys, hcode⟩ := Site.code_of_declares hdeclares
  rw [h.address?_label hs hcode, codeSize_nil]
  simp

/-- The code of the bootstrap ends in its return label. -/
theorem address?_bootstrap (hboot : code.withBootstrap = true) :
    code.symbols.address? (returnLabel code.options.entryPoint 0) = some (code.romAddress 0) := by
  let start : List Statement := [.value code.options.stackBase, .assign .toD (.y .a),
    .symbol stackPointer, .assign .toM .d] ++ (callFrame 0 (returnLabel code.options.entryPoint 0) ++
      [.symbol code.options.entryPoint, .goto])
  have hbefore : code.before 0 = start ++ [.label (returnLabel code.options.entryPoint 0)] := by
    rw [before, bootCode, if_pos hboot]
    simp [bootstrap, call, callFrame, start]
  have hlabel := h.assembles.labels start (returnLabel code.options.entryPoint 0) (code.after 0)
    (by rw [code.all_eq 0, hbefore]; simp)
  rw [h.symbols] at hlabel
  rw [hlabel, romAddress, offset, hbefore, codeSize_append]
  rfl

/-- A return goes on at the command behind the call. -/
theorem romAddress_resume {address : Word} {j : Nat} (hr : code.resume? address = some j) :
    code.romAddress j = address := by
  unfold resume? at hr
  split at hr
  next hboot =>
    cases hr
    exact Option.some.inj ((h.address?_bootstrap hboot.1).symm.trans hboot.2)
  next =>
    obtain ⟨i, hi, rfl⟩ := Option.map_eq_some_iff.1 hr
    obtain ⟨hi, hreturn, -⟩ := List.findIdx?_eq_some_iff_getElem.1 hi
    have hs : code.sites[i]? = some code.sites[i] := List.getElem?_eq_getElem hi
    obtain ⟨label, hlabel, haddress⟩ := Option.bind_eq_some_iff.1 (of_decide_eq_true hreturn)
    obtain ⟨name, args, hcall, rfl⟩ := Site.call_of_returnLabel? hlabel
    exact Option.some.inj ((h.address?_return hs hcall).symm.trans haddress)

/-- Every symbol is bound to a number that an address instruction can load. -/
theorem address?_lt {name : String} {a : Word} (ha : code.symbols.address? name = some a) :
    a.toNat < romSize := by
  cases hlookup : predefined.lookup name with
  | some b =>
    have hpredefined : ∀ q ∈ predefined, q.2.toNat < romSize := by decide
    obtain ⟨xs, ys, hlist, -⟩ := List.lookup_eq_some_iff.1 hlookup
    rw [SymbolTable.address?_of_predefined hlookup, Option.some.injEq] at ha
    exact ha ▸ hpredefined (name, b) (hlist ▸ by simp)
  | none =>
    have hsize := h.assembles.size
    have hroom := h.room
    by_cases hmem : name ∈ labelNames code.all
    · obtain ⟨xs, ys, hall⟩ := List.append_of_mem (mem_labelNames.1 hmem)
      have hlabel := h.assembles.labels xs name ys hall
      rw [h.symbols, ha, Option.some.injEq] at hlabel
      have hle : codeSize xs ≤ codeSize code.all := by
        rw [hall, codeSize_append]
        exact Nat.le_add_right _ _
      rw [hlabel, Nat.toUInt16_eq, UInt16.toNat_ofNat']
      exact Nat.lt_of_le_of_lt (Nat.mod_le _ _) (by omega)
    · have hvariable := h.assembles.unlabelled name a (by rw [h.symbols]; exact ha) hlookup hmem
      have hsparse : Sparse code.all := sparse_programCode _ _ _
      have hfirst : firstVariable.toNat = 16 := rfl
      have hrom : romSize = 32768 := rfl
      unfold Sparse at hsparse
      omega

end Loaded

end Code

end StackMachine

end HackStack
