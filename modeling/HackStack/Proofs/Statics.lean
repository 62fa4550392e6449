import HackStack.Proofs.Bindings
import HackStack.Proofs.Hygiene

set_option autoImplicit false

namespace HackStack

open Assembly

def Command.static? : Command → Option Word
  | .push .static index | .pop .static index => some index
  | _ => none

def SourceUnit.statics (u : SourceUnit) : List Word := u.commands.filterMap fun c => c.command.static?

def staticNames (units : List SourceUnit) : List String :=
  units.flatMap fun u => u.statics.map (Lowering.staticSymbol u.name)

namespace Assembly

theorem mem_references {code : List Statement} {name : String} :
    name ∈ references code ↔ .symbol name ∈ code := by
  rw [references, List.mem_filterMap]
  constructor
  · rintro ⟨i, hi, heq⟩
    cases i with
    | symbol other =>
      cases heq
      exact hi
    | _ => cases heq
  · exact fun h => ⟨_, h, rfl⟩

theorem references_append (xs ys : List Statement) :
    references (xs ++ ys) = references xs ++ references ys := List.filterMap_append

theorem references_flatMap {α : Type} (f : α → List Statement) (xs : List α) :
    references (xs.flatMap f) = xs.flatMap fun x => references (f x) := by
  induction xs with
  | nil => rfl
  | cons x xs ih => rw [List.flatMap_cons, references_append, ih, List.flatMap_cons]

namespace Program.Binds

variable {p : Program} {code : List Statement} (h : p.Binds code) {name other : String}
include h

theorem exists_variable (hname : name ∈ variableNames code) :
    ∃ j a, (variableNames code)[j]? = some name ∧ p.symbols[name]? = some a ∧ a.toNat = 16 + j := by
  obtain ⟨j, hj⟩ := List.mem_iff_getElem?.1 hname
  obtain ⟨a, ha, hcell⟩ := h.variable_address hj
  exact ⟨j, a, hj, ha, hcell⟩

theorem variable_inj (hname : name ∈ variableNames code) (hother : other ∈ variableNames code)
    (heq : p.symbols[name]? = p.symbols[other]?) : name = other := by
  obtain ⟨j, a, hj, ha, hcell⟩ := h.exists_variable hname
  obtain ⟨k, b, hk, hb, hcell'⟩ := h.exists_variable hother
  rw [ha, hb, Option.some_inj] at heq
  have hjk : j = k := by
    subst heq
    omega
  rw [hjk, hk] at hj
  exact Option.some_inj.1 hj.symm

end Program.Binds

end Assembly

namespace Lowering

theorem staticSymbol_inj {u v : String} {i j : Word} :
    staticSymbol u i = staticSymbol v j ↔ u = v ∧ i = j := by
  constructor
  · intro h
    have hparts : u = v ∧ i.toNat = j.toNat := suffixed_inj h
    exact ⟨hparts.1, UInt16.toNat_inj.1 hparts.2⟩
  · rintro ⟨rfl, rfl⟩
    rfl

def Site.static? (s : Site) : Option String := s.command.static?.map (staticSymbol s.unit)

theorem filterMap_static?_unitSites (unit : String) (n : Nat) (commands : List Located) :
    (unitSites unit n commands).filterMap Site.static? =
      (commands.filterMap fun c => c.command.static?).map (staticSymbol unit) := by
  induction commands generalizing n with
  | nil => rfl
  | cons c cs ih =>
    rw [unitSites, List.filterMap_cons, List.filterMap_cons, ih, Site.static?, Site.command]
    cases c.command.static? <;> rfl

theorem filterMap_static?_sitesFrom (n : Nat) (units : List SourceUnit) :
    (sitesFrom n units).filterMap Site.static? = staticNames units := by
  induction units generalizing n with
  | nil => rfl
  | cons u us ih =>
    rw [sitesFrom, List.filterMap_append, filterMap_static?_unitSites, ih]
    rfl

theorem mem_references_static {s : Site} {name : String} (h : s.static? = some name) :
    name ∈ references s.code := by
  obtain ⟨unit, position, ⟨c, location⟩⟩ := s
  obtain ⟨index, hindex, rfl⟩ := Option.map_eq_some_iff.1 h
  cases c with
  | push segment i =>
    cases segment <;> cases hindex
    exact List.mem_cons_self
  | pop segment i =>
    cases segment <;> cases hindex
    exact List.mem_cons_of_mem _ List.mem_cons_self
  | _ => cases hindex

theorem mem_references_of_staticNames (options : Options) (withBootstrap : Bool)
    {units : List SourceUnit} {name : String} (h : name ∈ staticNames units) :
    name ∈ references (programCode options withBootstrap units) := by
  rw [← filterMap_static?_sitesFrom (if withBootstrap then 1 else 0)] at h
  obtain ⟨s, hs, hname⟩ := List.mem_filterMap.1 h
  rw [programCode, references_append, references_flatMap]
  exact List.mem_append_right _ (List.mem_flatMap.2 ⟨s, hs, mem_references_static hname⟩)

theorem label_mem_program (options : Options) (withBootstrap : Bool) (units : List SourceUnit)
    (name : String) : .statement (.label name) ∈ program options withBootstrap units ↔
      name ∈ labelNames (programCode options withBootstrap units) := by
  rw [← mem_statements, statements_program, mem_labelNames]

theorem lookup_staticNames {units : List SourceUnit} {name : String} (h : name ∈ staticNames units) :
    predefined.lookup name = none := by
  obtain ⟨u, -, hname⟩ := List.mem_flatMap.1 h
  obtain ⟨i, -, rfl⟩ := List.mem_map.1 hname
  exact lookup_suffixed u.name i.toNat

/-- A static that is not spelled like a label is a variable of the program. -/
theorem static_mem_variableNames {options : Options} {withBootstrap : Bool} {units : List SourceUnit}
    {u : SourceUnit} {i : Word} (hu : u ∈ units) (hi : i ∈ u.statics)
    (hlabel : staticSymbol u.name i ∉ labelNames (programCode options withBootstrap units)) :
    staticSymbol u.name i ∈ variableNames (programCode options withBootstrap units) := by
  have hname : staticSymbol u.name i ∈ staticNames units :=
    List.mem_flatMap.2 ⟨u, hu, List.mem_map_of_mem hi⟩
  exact mem_variableNames.2 ⟨mem_references_of_staticNames options withBootstrap hname, hlabel,
    lookup_staticNames hname⟩

section Privacy

variable {options : Options} (hoptions : options.validate = .ok ()) (withBootstrap : Bool)
  {units : List SourceUnit} (hunits : ∀ u ∈ units, u.Readable) {p : Program}
  (hp : assemble (assemblyText options withBootstrap units) = .ok p)
include hoptions hunits hp

theorem binds_programCode : p.Binds (programCode options withBootstrap units) := by
  obtain ⟨lines, hread, hbinds⟩ := binds_of_assemble hp
  rwa [statements_of_read hoptions hunits hread] at hbinds

/-- Statics that are not spelled like a label have cells of their own: two references share a cell
exactly if they name the same index in units of the same name, and no other variable has the cell of a
static. -/
theorem statics_private
    (hlabels : ∀ u ∈ units, ∀ i ∈ u.statics,
      .statement (.label (staticSymbol u.name i)) ∉ program options withBootstrap units) :
    (∀ u ∈ units, ∀ i ∈ u.statics, ∀ v ∈ units, ∀ j ∈ v.statics, ∃ a b,
      p.address? (staticSymbol u.name i) = some a ∧ p.address? (staticSymbol v.name j) = some b ∧
        16 ≤ a.toNat ∧ 16 ≤ b.toNat ∧ (a = b ↔ u.name = v.name ∧ i = j)) ∧
    ∀ u ∈ units, ∀ i ∈ u.statics, ∀ name ∈ p.symbols,
      .statement (.label name) ∉ program options withBootstrap units →
      name ≠ staticSymbol u.name i → p.address? name ≠ p.address? (staticSymbol u.name i) := by
  have hbinds := binds_programCode hoptions withBootstrap hunits hp
  simp only [label_mem_program] at hlabels ⊢
  have hvariable (u : SourceUnit) (hu : u ∈ units) (i : Word) (hi : i ∈ u.statics) :
      staticSymbol u.name i ∈ variableNames (programCode options withBootstrap units) :=
    static_mem_variableNames hu hi (hlabels u hu i hi)
  constructor
  · intro u hu i hi v hv j hj
    obtain ⟨k, a, -, ha, hcell⟩ := hbinds.exists_variable (hvariable u hu i hi)
    obtain ⟨l, b, -, hb, hcell'⟩ := hbinds.exists_variable (hvariable v hv j hj)
    refine ⟨a, b, ha, hb, by omega, by omega, ?_⟩
    rw [← staticSymbol_inj]
    constructor
    · intro hab
      apply hbinds.variable_inj (hvariable u hu i hi) (hvariable v hv j hj)
      rw [ha, hb, hab]
    · intro hsame
      rw [hsame, hb] at ha
      exact Option.some_inj.1 ha.symm
  · intro u hu i hi name hname hlabel hne heq
    have hother : name ∈ variableNames (programCode options withBootstrap units) :=
      (hbinds.mem_symbols.1 hname).resolve_left hlabel
    exact hne (hbinds.variable_inj hother (hvariable u hu i hi) heq)

end Privacy

section Sample

/-- Three units, the first and the last under one name, which is also the start of the name between
them. -/
def nestedUnits : List SourceUnit :=
  [⟨"A", [⟨.push .static 1, "A.vm", 1⟩]⟩, ⟨"A.1", [⟨.push .static 1, "B.vm", 1⟩]⟩,
   ⟨"A", [⟨.pop .static 1, "C.vm", 1⟩, ⟨.goto "A.1.0", "C.vm", 2⟩]⟩]

theorem nestedUnits_readable : ∀ u ∈ nestedUnits, u.Readable := by
  simp only [nestedUnits, List.forall_mem_cons]
  exact ⟨⟨by decide, "A.vm", "push static 1", by decide, rfl⟩,
    ⟨by decide, "B.vm", "push static 1", by decide, rfl⟩,
    ⟨by decide, "C.vm", "pop static 1\ngoto A.1.0", by decide, rfl⟩, List.forall_mem_nil _⟩

theorem exists_assemble_nestedUnits : ∃ p, assemble (assemblyText {} false nestedUnits) = .ok p := by
  have hbind : Bindable (programCode {} false nestedUnits) := by
    rw [Bindable]
    decide
  refine exists_assemble_render (program_writable rfl false nestedUnits_readable) ?_ ?_
  · rwa [statements_program]
  · rw [statements_program]
    decide

/-- The units of one name share their static, and the unit between them has its own, apart from the
target of the jump that is spelled like one more static. -/
theorem statics_private_nestedUnits : ∃ p, assemble (assemblyText {} false nestedUnits) = .ok p ∧
    (∃ a b, p.address? "A.1" = some a ∧ p.address? "A.1.1" = some b ∧ 16 ≤ a.toNat ∧ 16 ≤ b.toNat ∧
      a ≠ b) ∧
    p.address? "A.1.0" ≠ p.address? "A.1.1" := by
  have hlabels (name : String) : .statement (.label name) ∉ program {} false nestedUnits := by
    have hnone : labelNames (programCode {} false nestedUnits) = [] := rfl
    rw [label_mem_program, hnone]
    exact List.not_mem_nil
  obtain ⟨p, hp⟩ := exists_assemble_nestedUnits
  obtain ⟨hpairs, hothers⟩ :=
    statics_private rfl false nestedUnits_readable hp fun u _ i _ => hlabels _
  obtain ⟨a, b, ha, hb, hlow, hlow', hiff⟩ :=
    hpairs _ (List.mem_cons_self ..) 1 (by decide) _ (List.mem_cons_of_mem _ List.mem_cons_self) 1
      (by decide)
  refine ⟨p, hp, ⟨a, b, ha, hb, hlow, hlow', fun heq => ?_⟩, ?_⟩
  · exact absurd (hiff.1 heq).1 (by decide)
  · have hjump : "A.1.0" ∈ variableNames (programCode {} false nestedUnits) :=
      mem_variableNames.2 ⟨by decide, List.not_mem_nil, rfl⟩
    have hbinds := binds_programCode rfl false nestedUnits_readable hp
    exact hothers _ (List.mem_cons_of_mem _ List.mem_cons_self) 1 (by decide) "A.1.0"
      (hbinds.mem_symbols.2 (.inr hjump)) (hlabels _) (by decide)

end Sample

end Lowering

end HackStack
