import HackStack.Proofs.Frames
import HackStack.Proofs.Printing
import HackStack.Proofs.Statics
import Mathlib.Data.List.Nodup

set_option autoImplicit false

namespace HackStack

open Assembly

def Command.targets : Command → List String
  | .goto name | .ifGoto name | .call name _ => [name]
  | _ => []

namespace Lowering

section Numbering

variable {q : String → Bool} (hq : ∀ name a, predefined.lookup name = some a → q name = false)
include hq

theorem filter_references_fixed {code : List Statement}
    (h : (references code).all fun name => (predefined.lookup name).isSome) :
    (references code).filter q = [] := by
  refine List.filter_eq_nil_iff.2 fun name hname => ?_
  obtain ⟨a, ha⟩ := Option.isSome_iff_exists.1 (List.all_eq_true.1 h name hname)
  rw [hq name a ha]
  exact Bool.false_ne_true

theorem filter_references_push (unit : String) (segment : Segment) (index : Word) :
    (references (push unit segment index)).filter q =
      ((Command.push segment index).static?.map (staticSymbol unit)).toList.filter q := by
  cases segment with
  | static =>
    have hrest : (references pushD).filter q = [] := filter_references_fixed hq rfl
    change (staticSymbol unit index :: references pushD).filter q = [staticSymbol unit index].filter q
    rw [List.filter_cons, List.filter_cons, hrest, List.filter_nil]
  | _ => exact filter_references_fixed hq rfl

theorem filter_references_pop (unit : String) (segment : Segment) (index : Word) :
    (references (pop unit segment index)).filter q =
      ((Command.pop segment index).static?.map (staticSymbol unit)).toList.filter q := by
  cases segment with
  | static =>
    have hrest : (references popD).filter q = [] := filter_references_fixed hq rfl
    change (references popD ++ [staticSymbol unit index]).filter q = [staticSymbol unit index].filter q
    rw [List.filter_append, hrest, List.nil_append]
  | _ => exact filter_references_fixed hq rfl

theorem filter_references_zeros (unit : String) (n : Nat) :
    (references (List.replicate n (push unit .constant 0)).flatten).filter q = [] := by
  induction n with
  | zero => rfl
  | succ n ih =>
    rw [List.replicate_succ, List.flatten_cons, references_append, List.filter_append, ih,
      filter_references_push hq]
    rfl

theorem filter_references_comparison {unit : String} {op : Operation} (condition : Jump)
    {position : Nat} (htrue : q (trueLabel unit op position) = false)
    (hend : q (endLabel unit op position) = false) :
    (references (comparison unit op condition position)).filter q = [] := by
  have hSP : q stackPointer = false := hq _ _ rfl
  change [stackPointer, trueLabel unit op position, stackPointer, endLabel unit op position,
    stackPointer].filter q = []
  simp [hSP, htrue, hend]

theorem filter_references_call (target : String) (args : Word) {returnTo : String}
    (hreturn : q returnTo = false) :
    (references (call target args returnTo)).filter q = [target].filter q := by
  have hframe : (references (pushD ++ savedRegisters.flatMap saveRegister ++ enterFrame args)).filter q =
      [] := filter_references_fixed hq rfl
  change (returnTo :: (references (pushD ++ savedRegisters.flatMap saveRegister ++ enterFrame args) ++
    [target])).filter q = _
  rw [List.filter_cons_of_neg (Bool.eq_false_iff.1 hreturn), List.filter_append, hframe,
    List.nil_append]

/-- Besides the labels that it jumps to and what is predefined, a command refers to its static. -/
theorem filter_references_site (s : Site) (hmade : ∀ name ∈ s.madeLabels, q name = false)
    (htargets : ∀ name ∈ s.command.targets, q name = false) :
    (references s.code).filter q = s.static?.toList.filter q := by
  obtain ⟨unit, position, ⟨c, location⟩⟩ := s
  cases c with
  | push segment index => exact filter_references_push hq unit segment index
  | pop segment index => exact filter_references_pop hq unit segment index
  | operate op =>
    cases op with
    | eq | gt | lt =>
      exact filter_references_comparison hq _ (hmade _ List.mem_cons_self)
        (hmade _ (List.mem_cons_of_mem _ List.mem_cons_self))
    | _ => exact filter_references_fixed hq rfl
  | label name => rfl
  | goto name =>
    have htarget := htargets name List.mem_cons_self
    exact List.filter_cons_of_neg (Bool.eq_false_iff.1 htarget)
  | ifGoto name =>
    have htarget := htargets name List.mem_cons_self
    have hpop : (references popD).filter q = [] := filter_references_fixed hq rfl
    change (references popD ++ [name]).filter q = []
    rw [List.filter_append, hpop, List.filter_cons_of_neg (Bool.eq_false_iff.1 htarget)]
    rfl
  | function name locals => exact filter_references_zeros hq unit locals.toNat
  | call name args =>
    have htarget := htargets name List.mem_cons_self
    exact (filter_references_call hq name args (hmade _ List.mem_cons_self)).trans
      (List.filter_cons_of_neg (Bool.eq_false_iff.1 htarget))
  | ret => exact filter_references_fixed hq rfl

theorem filter_references_sites {ss : List Site}
    (hmade : ∀ s ∈ ss, ∀ name ∈ s.madeLabels, q name = false)
    (htargets : ∀ s ∈ ss, ∀ name ∈ s.command.targets, q name = false) :
    (references (ss.flatMap Site.code)).filter q = (ss.filterMap Site.static?).filter q := by
  induction ss with
  | nil => rfl
  | cons s ss ih =>
    obtain ⟨hmade, hmades⟩ := List.forall_mem_cons.1 hmade
    obtain ⟨htarget, htargets⟩ := List.forall_mem_cons.1 htargets
    rw [List.flatMap_cons, references_append, List.filter_append, ih hmades htargets,
      filter_references_site hq s hmade htarget, List.filterMap_cons]
    cases s.static? with
    | none => rfl
    | some name => exact (List.filter_append [name] _).symm

end Numbering

/-- A program whose jumps have targets takes cells for its entry function and its statics, as far as they
are not labels. -/
theorem variableNames_programCode {options : Options} {units : List SourceUnit}
    (htargets : ∀ u ∈ units, ∀ c ∈ u.commands, ∀ name ∈ c.command.targets,
      name ∈ labelNames (programCode options true units)) :
    variableNames (programCode options true units) =
      ((options.entryPoint :: staticNames units).filter fun name =>
        name ∉ labelNames (programCode options true units) ∧ predefined.lookup name = none).eraseDups := by
  have hperm := labelNames_programCode options true units
  rw [variableNames]
  congr 1
  generalize hq : (fun name => decide (name ∉ labelNames (programCode options true units) ∧
    predefined.lookup name = none)) = q
  have hfixed (name : String) (a : Word) (ha : predefined.lookup name = some a) : q name = false := by
    simp [← hq, ha]
  have hlabel (name : String) (h : name ∈ labelNames (programCode options true units)) :
      q name = false := by
    simp [← hq, h]
  have hinvented (name : String) (h : name ∈ inventedLabels options true units) : q name = false :=
    hlabel name (hperm.mem_iff.2 (List.mem_append_left _ h))
  have hboot : (references (bootCode options true)).filter q = [options.entryPoint].filter q := by
    have hpointer : q stackPointer = false := hfixed _ _ rfl
    have hreturn := hinvented (returnLabel options.entryPoint 0) List.mem_cons_self
    change (stackPointer :: references (call options.entryPoint 0 _)).filter q = _
    rw [List.filter_cons_of_neg (Bool.eq_false_iff.1 hpointer), filter_references_call hfixed _ _ hreturn]
  have hsites : (references ((sites true units).flatMap Site.code)).filter q =
      (staticNames units).filter q := by
    rw [← filterMap_static?_sitesFrom 1]
    refine filter_references_sites hfixed (fun s hs name hname => ?_) (fun s hs name hname => ?_)
    · exact hinvented name (List.mem_append_right _ (List.mem_flatMap.2 ⟨s, hs, hname⟩))
    · obtain ⟨u, hu, hc⟩ := List.mem_flatMap.1 (located_mem_of_site hs)
      exact hlabel name (htargets u hu _ hc name hname)
  rw [programCode, references_append, List.filter_append, hboot, hsites, ← List.filter_append]
  rfl

def staticVariables (units : List SourceUnit) (code : List Statement) : List String :=
  ((staticNames units).filter fun name => name ∉ labelNames code).eraseDups

theorem mem_staticVariables {units : List SourceUnit} {code : List Statement} {name : String} :
    name ∈ staticVariables units code ↔ name ∈ staticNames units ∧ name ∉ labelNames code := by
  rw [staticVariables, List.mem_eraseDups, List.mem_filter, decide_eq_true_eq]

theorem entry_ne_suffixed (stem : String) (n : Nat) : "Sys.init" ≠ suffixed stem n := by
  intro h
  have hlist := congrArg String.toList h
  rw [suffixed_toList, show "Sys.init".toList = "Sys".toList ++ '.' :: "init".toList from rfl] at hlist
  have hdot : '.' ∉ Decimal.digits n := fun hmem =>
    absurd (Decimal.isDigit_of_mem_digits hmem) (by decide)
  obtain ⟨-, hdigits⟩ := append_sep_inj (by decide) hdot hlist
  have hletter : 'i' ∈ Decimal.digits n := hdigits ▸ by decide
  exact absurd (Decimal.isDigit_of_mem_digits hletter) (by decide)

theorem entry_not_mem_staticNames (units : List SourceUnit) : "Sys.init" ∉ staticNames units := by
  intro h
  obtain ⟨u, -, hname⟩ := List.mem_flatMap.1 h
  obtain ⟨i, -, heq⟩ := List.mem_map.1 hname
  exact entry_ne_suffixed u.name i.toNat heq.symm

/-- The cells below the stack that are left for statics. An entry function without a label takes one. -/
def staticRoom (code : List Statement) : Nat := if "Sys.init" ∈ labelNames code then 240 else 239

theorem variableNames_default {units : List SourceUnit}
    (htargets : ∀ u ∈ units, ∀ c ∈ u.commands, ∀ name ∈ c.command.targets,
      name ∈ labelNames (programCode {} true units)) :
    ∃ entry, variableNames (programCode {} true units) =
        entry ++ staticVariables units (programCode {} true units) ∧
      entry.length + staticRoom (programCode {} true units) = 240 := by
  rw [variableNames_programCode htargets, staticRoom, staticVariables]
  generalize labelNames (programCode {} true units) = labels
  have hstatics : (staticNames units).filter (fun name =>
      name ∉ labels ∧ predefined.lookup name = none) =
        (staticNames units).filter fun name => name ∉ labels :=
    List.filter_congr fun name hname => by simp [lookup_staticNames hname]
  rw [List.filter_cons, hstatics]
  by_cases hentry : "Sys.init" ∈ labels
  · refine ⟨[], ?_, by rw [if_pos hentry]; rfl⟩
    rw [if_neg (by simp [hentry])]
    rfl
  · refine ⟨["Sys.init"], ?_, by rw [if_neg hentry]; rfl⟩
    have hnew : predefined.lookup "Sys.init" = none := rfl
    rw [if_pos (by simp [hentry, hnew]), List.eraseDups_cons, List.singleton_append]
    congr 2
    refine List.filter_eq_self.2 fun name hname => ?_
    have hne : name ≠ "Sys.init" := by
      rintro rfl
      exact entry_not_mem_staticNames units (List.mem_filter.1 hname).1
    simpa using hne

/-- Some push onto a stack that is at its base or above changes the word in a cell. -/
def PushReaches (table : SymbolTable) (cell : Word) : Prop :=
  ∃ s s' : Core, 256 ≤ (s.ram.read 0).toNat ∧ exec table pushD s = some s' ∧
    s'.ram.read cell ≠ s.ram.read cell

theorem pushReaches_iff {table : SymbolTable} {cell : Word} (h : 16 ≤ cell.toNat) :
    PushReaches table cell ↔ 256 ≤ cell.toNat ∧ cell.toNat < ramSize := by
  have hexec (s : Core) : exec table pushD s =
      (Access.shared.push? s.ram s.d).bind fun ram => some ⟨ram, 0, s.d⟩ := by
    have hpush := exec_pushD table [] s
    rwa [List.append_nil] at hpush
  have hpointer : cell ≠ 0 := (Word.ne_of_lt (by decide) h).symm
  constructor
  · rintro ⟨s, s', hbase, hs, hne⟩
    rw [hexec] at hs
    obtain ⟨ram, hram, hs⟩ := Option.bind_eq_some_iff.1 hs
    cases hs
    have hhigh : (s.ram.read 0).toNat < ramSize := by
      by_contra hout
      rw [Memory.push?_eq_none s.d rfl hout] at hram
      cases hram
    obtain ⟨ram', hram', -, -, hkeep⟩ := Memory.push?_spec s.d rfl (by omega) hhigh
    cases hram.symm.trans hram'
    have hcell : cell = s.ram.read 0 := by
      by_contra hother
      exact hne (hkeep cell hpointer hother)
    rw [hcell]
    exact ⟨hbase, hhigh⟩
  · rintro ⟨hbase, hhigh⟩
    have hzero : (Memory.zero.write 0 cell).read 0 = cell := Memory.read_write_self (by decide)
    obtain ⟨ram, hram, -, hcell, -⟩ := Memory.push?_spec 1 hzero (by omega) hhigh
    refine ⟨⟨Memory.zero.write 0 cell, 0, 1⟩, ⟨ram, 0, 1⟩, ?_, ?_, ?_⟩
    · rwa [hzero]
    · rw [hexec, hram]
      rfl
    · rw [hcell, Memory.read_write_ne hpointer.symm, Memory.read_zero]
      decide

/-- What holds of the cells below the stack and not of its first cell holds of all variables behind some
others exactly if there is room for them. -/
theorem forall_variables_iff {p : Program} {code : List Statement} (hbinds : p.Binds code)
    {others names : List String} (hvariables : variableNames code = others ++ names) {room : Nat}
    (hroom : others.length + room = 240) {P : Word → Prop}
    (hlow : ∀ a, 16 ≤ a.toNat → a.toNat ≤ 255 → P a) (hbase : ∀ a, a.toNat = 256 → ¬ P a) :
    (∀ name ∈ names, ∃ a, p.address? name = some a ∧ P a) ↔ names.length ≤ room := by
  have haddress {k : Nat} {name : String} (hk : names[k]? = some name) :
      ∃ a, p.address? name = some a ∧ a.toNat = 16 + others.length + k := by
    have hplace : (variableNames code)[others.length + k]? = some name := by
      rw [hvariables, List.getElem?_append_right (Nat.le_add_right _ _), Nat.add_sub_cancel_left, hk]
    obtain ⟨a, ha, hcell⟩ := hbinds.variable_address hplace
    exact ⟨a, ha, by omega⟩
  constructor
  · intro hall
    by_contra hmany
    have hlt : room < names.length := Nat.lt_of_not_le hmany
    have hname : names[room]? = some names[room] := List.getElem?_eq_getElem hlt
    obtain ⟨a, ha, hcell⟩ := haddress hname
    obtain ⟨b, hb, hP⟩ := hall _ (List.mem_of_getElem? hname)
    cases ha.symm.trans hb
    exact hbase a (by omega) hP
  · intro hfew name hname
    obtain ⟨k, hk⟩ := List.mem_iff_getElem?.1 hname
    have hlt := (List.getElem?_eq_some_iff.1 hk).1
    obtain ⟨a, ha, hcell⟩ := haddress hk
    exact ⟨a, ha, hlow a (by omega) (by omega)⟩

/-- Every static that is no label has a cell by its place among the variables of the text, and a push
reaches it from the place 240 on. If the files have names on one line, only the entry function can take a
cell before the statics, and they stay below the stack, out of reach of every push, exactly if there is
room for their number. -/
theorem statics_below_stack_iff {units : List SourceUnit} (hunits : ∀ u ∈ units, u.Accepted)
    (htargets : ∀ u ∈ units, ∀ c ∈ u.commands, ∀ name ∈ c.command.targets,
      .statement (.label name) ∈ program {} true units)
    {p : Program} (hp : assemble (assemblyText {} true units) = .ok p) :
    ∃ lines, read (assemblyText {} true units) = .ok lines ∧
      let code := lines.map (·.statement)
      let statics := staticVariables units code
      (∀ name ∈ statics, ∃ j a, (variableNames code)[j]? = some name ∧ p.address? name = some a ∧
        a.toNat = 16 + j ∧ (PushReaches p.symbols a ↔ 240 ≤ j ∧ j < 32752)) ∧
      ((∀ u ∈ units, u.Readable) →
        ((∀ name ∈ statics, ∃ a, p.address? name = some a ∧ 16 ≤ a.toNat ∧ a.toNat ≤ 255) ↔
          statics.length ≤ staticRoom code) ∧
        ((∀ name ∈ statics, ∃ a, p.address? name = some a ∧ ¬ PushReaches p.symbols a) ↔
          statics.length ≤ staticRoom code)) := by
  have hoptions : Options.validate {} = .ok () := rfl
  obtain ⟨lines, hread, hbinds⟩ := binds_of_assemble hp
  refine ⟨lines, hread, fun name hname => ?_, fun hreadable => ?_⟩
  · obtain ⟨hstatic, hlabel⟩ := mem_staticVariables.1 hname
    -- The load of the static is written on a line of its own, so it is read whatever the comments hold.
    have hload := mem_references.1 (mem_references_of_staticNames {} true hstatic)
    have hwritable := programCode_writable hoptions true hunits _ hload
    rw [← statements_program] at hload
    have hreference := mem_references.2 (mem_of_read_render hread hload hwritable)
    obtain ⟨j, a, hj, ha, hcell⟩ :=
      hbinds.exists_variable (mem_variableNames.2 ⟨hreference, hlabel, lookup_staticNames hstatic⟩)
    refine ⟨j, a, hj, ha, hcell, ?_⟩
    rw [pushReaches_iff (by omega), hcell, ramSize]
    omega
  · rw [statements_of_read hoptions hreadable hread] at hbinds ⊢
    have hdefined (u : SourceUnit) (hu : u ∈ units) (c : Located) (hc : c ∈ u.commands) (name : String)
        (hname : name ∈ c.command.targets) : name ∈ labelNames (programCode {} true units) :=
      (label_mem_program _ _ _ _).1 (htargets u hu c hc name hname)
    obtain ⟨entry, hvariables, hroom⟩ := variableNames_default hdefined
    constructor
    · refine forall_variables_iff hbinds hvariables hroom (fun a hlow hhigh => ⟨hlow, hhigh⟩) ?_
      intro a ha hbelow
      omega
    · refine forall_variables_iff hbinds hvariables hroom (fun a hlow hhigh => ?_) fun a ha hsafe => ?_
      · rw [pushReaches_iff hlow]
        omega
      · refine hsafe ((pushReaches_iff (by omega)).2 ?_)
        rw [ha, ramSize]
        omega

section Sample

def crowdedCommands (n : Nat) : List Command :=
  .function "Sys.init" 0 :: (List.range n).map fun i => .push .static i.toUInt16

def crowdedUnit (n : Nat) : SourceUnit := ⟨"Sys", Located.sequence "Sys.vm" (crowdedCommands n)⟩

theorem toNat_crowdedIndex {n i : Nat} (h : n ≤ 32768) (hi : i < n) : i.toUInt16.toNat = i := by
  have hsize : UInt16.size = 65536 := rfl
  exact UInt16.toNat_ofNat_of_lt' (by omega)

theorem crowdedCommands_wellFormed {n : Nat} (h : n ≤ 32768) :
    ∀ c ∈ crowdedCommands n, c.WellFormed := by
  refine List.forall_mem_cons.2 ⟨by decide, fun c hc => ?_⟩
  obtain ⟨i, hi, rfl⟩ := List.mem_map.1 hc
  have hlt := List.mem_range.1 hi
  refine ⟨?_, fun _ hcapacity => by cases hcapacity⟩
  rw [toNat_crowdedIndex h hlt, Word.maxLiteral]
  omega

theorem allWithin_crowded (scope : Option String) (is : List Nat) :
    Command.allWithin scope (is.map fun i => .push .static i.toUInt16) =
      is.map fun i => .push .static i.toUInt16 := by
  induction is with
  | nil => rfl
  | cons i is ih => exact congrArg _ ih

theorem crowdedUnit_readable {n : Nat} (h : n ≤ 32768) : ∀ u ∈ [crowdedUnit n], u.Readable := by
  intro u hu
  obtain rfl := List.mem_singleton.1 hu
  have hwell := crowdedCommands_wellFormed h
  have hlines : ∀ l ∈ (crowdedCommands n).map (·.text.toList), Text.IsLine l := by
    intro l hl
    obtain ⟨c, hc, rfl⟩ := List.mem_map.1 hl
    exact Command.text_isLine (hwell c hc)
  let source := String.ofList (((crowdedCommands n).map (·.text.toList)).flatMap (· ++ ['\n']))
  have hsource : Text.lines source.toList = (crowdedCommands n).map (·.text.toList) := by
    rw [String.toList_ofList, (Text.lines_of_isLine hlines).1]
  have hread : Command.read "Sys.vm" source = .ok (crowdedUnit n).commands := by
    rw [Command.read_of_lines hwell hsource, crowdedCommands, Command.allWithin, allWithin_crowded]
    rfl
  have hname : isSymbol "Sys".toList := by decide
  refine ⟨hname, "Sys.vm", source, by decide, ?_⟩
  rw [SourceUnit.read, show (crowdedUnit n).name = "Sys" from rfl, hread]
  rfl

theorem map_command_crowdedUnit (n : Nat) :
    (crowdedUnit n).commands.map (·.command) = crowdedCommands n := by
  rw [crowdedUnit, Located.sequence, List.map_map]
  exact List.zipIdx_map_fst 1 _

theorem declaredNames_crowded (n : Nat) : declaredNames [crowdedUnit n] = ["Sys.init"] := by
  have hcommands : (crowdedUnit n).commands.flatMap (fun c => c.command.declaredNames) =
      (crowdedCommands n).flatMap Command.declaredNames := by
    rw [← map_command_crowdedUnit, List.flatMap_map]
  rw [declaredNames, List.flatMap_singleton, hcommands, crowdedCommands, List.flatMap_cons,
    List.flatMap_map]
  simp [Command.declaredNames]

theorem command_crowdedUnit {n : Nat} {c : Located} (h : c ∈ (crowdedUnit n).commands) :
    c.command = .function "Sys.init" 0 ∨ ∃ i, c.command = .push .static i := by
  have hcommand : c.command ∈ (crowdedUnit n).commands.map (·.command) := List.mem_map_of_mem h
  rw [map_command_crowdedUnit] at hcommand
  refine (List.mem_cons.1 hcommand).imp_right fun hpush => ?_
  obtain ⟨i, -, heq⟩ := List.mem_map.1 hpush
  exact ⟨_, heq.symm⟩

theorem inventedLabels_crowded (n : Nat) :
    inventedLabels {} true [crowdedUnit n] = [suffixed "Sys.init$ret" 0] := by
  have hmade : (sites true [crowdedUnit n]).flatMap Site.madeLabels = [] := by
    refine List.flatMap_eq_nil_iff.2 fun s hs => ?_
    have hmem := located_mem_of_site hs
    rw [List.flatMap_singleton] at hmem
    rw [Site.madeLabels, Site.command]
    obtain heq | ⟨i, heq⟩ := command_crowdedUnit hmem
    · rw [heq]
      rfl
    · rw [heq]
      rfl
  rw [inventedLabels, hmade]
  rfl

theorem exists_assemble_crowded : ∃ p, assemble (assemblyText {} true [crowdedUnit 241]) = .ok p := by
  have hbind : Bindable (programCode {} true [crowdedUnit 241]) := by
    rw [bindable_programCode, inventedLabels_crowded]
    all_goals
      rw [declaredNames_crowded]
      decide
  have hsize : codeSize (programCode {} true [crowdedUnit 241]) ≤ romSize := by decide +kernel
  rw [← statements_program] at hbind hsize
  exact exists_assemble_render (program_writable rfl true (crowdedUnit_readable (by decide))) hbind hsize

theorem staticNames_crowded (n : Nat) :
    staticNames [crowdedUnit n] = (List.range n).map fun i => staticSymbol "Sys" i.toUInt16 := by
  have hstatics : (crowdedUnit n).statics = (List.range n).map Nat.toUInt16 := by
    have hcommands : (crowdedUnit n).statics = (crowdedCommands n).filterMap Command.static? := by
      rw [← map_command_crowdedUnit, List.filterMap_map]
      rfl
    rw [hcommands, crowdedCommands, List.filterMap_cons_none rfl, List.filterMap_map,
      ← List.filterMap_eq_map]
    rfl
  rw [staticNames, List.flatMap_singleton, hstatics, List.map_map]
  rfl

theorem le_length_staticVariables_crowded {n : Nat} (h : n ≤ 32768) :
    n ≤ (staticVariables [crowdedUnit n] (programCode {} true [crowdedUnit n])).length := by
  have hnodup : ((List.range n).map (suffixed "Sys")).Nodup :=
    List.Nodup.map (fun i j hij => (suffixed_inj hij).2) List.nodup_range
  have hsubset : (List.range n).map (suffixed "Sys") ⊆
      staticVariables [crowdedUnit n] (programCode {} true [crowdedUnit n]) := by
    intro name hname
    obtain ⟨i, hi, rfl⟩ := List.mem_map.1 hname
    have hindex := toNat_crowdedIndex h (List.mem_range.1 hi)
    rw [mem_staticVariables, staticNames_crowded, (labelNames_programCode {} true _).mem_iff,
      inventedLabels_crowded, declaredNames_crowded]
    refine ⟨List.mem_map.2 ⟨i, hi, congrArg (suffixed "Sys") hindex⟩, fun hlabel => ?_⟩
    obtain heq | hlabel := List.mem_cons.1 hlabel
    · exact absurd (suffixed_inj heq).1 (by decide)
    · exact entry_ne_suffixed "Sys" i (List.mem_singleton.1 hlabel).symm
  have hlength := (hnodup.subperm hsubset).length_le
  rwa [List.length_map, List.length_range] at hlength

/-- One static more than there is room for is pushed over. -/
theorem statics_below_stack_crowded : ∃ p,
    assemble (assemblyText {} true [crowdedUnit 241]) = .ok p ∧
      ∃ name ∈ staticNames [crowdedUnit 241], ∃ a, p.address? name = some a ∧
        PushReaches p.symbols a := by
  have hoptions : Options.validate {} = .ok () := rfl
  have hreadable := crowdedUnit_readable (n := 241) (by decide)
  have htargets : ∀ u ∈ [crowdedUnit 241], ∀ c ∈ u.commands, ∀ name ∈ c.command.targets,
      .statement (.label name) ∈ program {} true [crowdedUnit 241] := by
    intro u hu c hc name hname
    obtain rfl := List.mem_singleton.1 hu
    obtain heq | ⟨i, heq⟩ := command_crowdedUnit hc
    · rw [heq] at hname
      cases hname
    · rw [heq] at hname
      cases hname
  obtain ⟨p, hp⟩ := exists_assemble_crowded
  obtain ⟨lines, hread, hplaces, hcount⟩ :=
    statics_below_stack_iff (fun u hu => (hreadable u hu).accepted) htargets hp
  have hlength := le_length_staticVariables_crowded (n := 241) (by decide)
  rw [← statements_of_read hoptions hreadable hread] at hlength
  refine ⟨p, hp, ?_⟩
  by_contra hnone
  have hfew := (hcount hreadable).2.1 fun name hname => by
    obtain ⟨j, a, -, ha, -⟩ := hplaces name hname
    exact ⟨a, ha, fun hreach => hnone ⟨name, (mem_staticVariables.1 hname).1, a, ha, hreach⟩⟩
  have hroom : staticRoom (lines.map (·.statement)) ≤ 240 := by
    rw [staticRoom]
    split <;> omega
  omega

end Sample

end Lowering

end HackStack
