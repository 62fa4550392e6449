import HackStack.Proofs.Generated

set_option autoImplicit false

namespace HackStack.Lowering

open Assembly

theorem lookup_suffixed (stem : String) (n : Nat) : predefined.lookup (suffixed stem n) = none := by
  have hdot : ∀ p ∈ predefined, '.' ∉ p.1.toList := by decide
  refine List.lookup_eq_none_iff.2 fun p hp => ?_
  rw [bne_iff_ne]
  intro heq
  have hmem : '.' ∈ (suffixed stem n).toList := by
    rw [suffixed_toList]
    simp
  exact hdot p hp (heq ▸ hmem)

theorem suffixed_of_mem_inventedLabels {options : Options} {withBootstrap : Bool}
    {units : List SourceUnit} {name : String} (h : name ∈ inventedLabels options withBootstrap units) :
    ∃ stem n, name = suffixed stem n := by
  obtain h | h := List.mem_append.1 h
  · cases withBootstrap with
    | false => cases h
    | true =>
      obtain rfl := List.mem_singleton.1 h
      exact ⟨_, _, returnLabel_eq _ _⟩
  · obtain ⟨s, -, hname⟩ := List.mem_flatMap.1 h
    obtain ⟨stem, heq⟩ := exists_of_mem_madeLabels hname
    exact ⟨stem, _, heq⟩

section

variable (options : Options) (withBootstrap : Bool) {units : List SourceUnit}

/-- The labels of a program whose own names are distinct and new can be bound exactly if no label made
for it is declared by it. -/
theorem bindable_programCode (hdistinct : (declaredNames units).Nodup)
    (hnew : ∀ name ∈ declaredNames units, predefined.lookup name = none) :
    Bindable (programCode options withBootstrap units) ↔
      ∀ name ∈ inventedLabels options withBootstrap units, name ∉ declaredNames units := by
  have hperm := labelNames_programCode options withBootstrap units
  have hlookup : ∀ name ∈ labelNames (programCode options withBootstrap units),
      predefined.lookup name = none := by
    intro name hname
    obtain h | h := List.mem_append.1 (hperm.mem_iff.1 hname)
    · obtain ⟨stem, n, rfl⟩ := suffixed_of_mem_inventedLabels h
      exact lookup_suffixed stem n
    · exact hnew name h
  rw [Bindable, and_iff_left hlookup, hperm.nodup_iff, List.nodup_append]
  constructor
  · rintro ⟨-, -, hapart⟩ name hinvented hdeclared
    exact hapart name hinvented name hdeclared rfl
  · intro hapart
    refine ⟨nodup_inventedLabels options withBootstrap units, hdistinct, ?_⟩
    rintro name hinvented other hdeclared rfl
    exact hapart name hinvented hdeclared

theorem reportsDuplicate_program {options : Options} (hoptions : options.validate = .ok ())
    (hunits : ∀ u ∈ units, u.Readable) (hdistinct : (declaredNames units).Nodup)
    (hnew : ∀ name ∈ declaredNames units, predefined.lookup name = none) :
    ReportsDuplicate (assemblyText options withBootstrap units) ↔
      ∃ name ∈ inventedLabels options withBootstrap units, name ∈ declaredNames units := by
  rw [assemblyText, reportsDuplicate_render (program_writable hoptions withBootstrap hunits),
    statements_program, bindable_programCode options withBootstrap hdistinct hnew]
  simp only [Classical.not_forall, Classical.not_not, exists_prop]

/-- Assembling a program whose own names are distinct and new reports a duplicate exactly if a label
made for the program is declared by it. This cannot happen to names that do not end in a dot and a
number. -/
theorem duplicate_label_iff_invented_declared {options : Options}
    (hoptions : options.validate = .ok ()) (hunits : ∀ u ∈ units, u.Readable)
    (hdistinct : (declaredNames units).Nodup)
    (hnew : ∀ name ∈ declaredNames units, predefined.lookup name = none) :
    (ReportsDuplicate (assemblyText options withBootstrap units) ↔
        ∃ name ∈ inventedLabels options withBootstrap units, name ∈ declaredNames units) ∧
      ((∀ name ∈ declaredNames units, ∀ stem n, name ≠ suffixed stem n) →
        ¬ ReportsDuplicate (assemblyText options withBootstrap units)) := by
  have hiff := reportsDuplicate_program withBootstrap hoptions hunits hdistinct hnew
  refine ⟨hiff, fun hplain hreport => ?_⟩
  obtain ⟨name, hinvented, hdeclared⟩ := hiff.1 hreport
  obtain ⟨stem, n, heq⟩ := suffixed_of_mem_inventedLabels hinvented
  exact hplain name hdeclared stem n heq

end

section Sample

def collidingSource : String :=
  "goto END\ncall F 0\nlabel END\nfunction F 0\nlabel ret.1\n"

def collidingUnit : SourceUnit where
  name := "Main"
  commands :=
    [⟨.goto "END", "Main.vm", 1⟩, ⟨.call "F" 0, "Main.vm", 2⟩, ⟨.label "END", "Main.vm", 3⟩,
     ⟨.function "F" 0, "Main.vm", 4⟩, ⟨.label "F$ret.1", "Main.vm", 5⟩]

theorem collidingUnit_read : SourceUnit.read "Main" "Main.vm" collidingSource = .ok collidingUnit :=
  rfl

theorem collidingUnit_readable : ∀ u ∈ [collidingUnit], u.Readable := by
  intro u hu
  obtain rfl := List.mem_singleton.1 hu
  exact ⟨by decide, "Main.vm", collidingSource, by decide, collidingUnit_read⟩

/-- The names that the unit declares are distinct and new, and one of them is also made for its
call. -/
theorem duplicate_label_colliding : (declaredNames [collidingUnit]).Nodup ∧
    (∀ name ∈ declaredNames [collidingUnit], predefined.lookup name = none) ∧
    ReportsDuplicate (assemblyText {} false [collidingUnit]) := by
  have hdistinct : (declaredNames [collidingUnit]).Nodup := by decide
  have hnew : ∀ name ∈ declaredNames [collidingUnit], predefined.lookup name = none := by decide
  refine ⟨hdistinct, hnew, ?_⟩
  have hoptions : ({} : Options).validate = .ok () := rfl
  have hiff := (duplicate_label_iff_invented_declared false hoptions collidingUnit_readable hdistinct
    hnew).1
  exact hiff.2 ⟨"F$ret.1", by decide, by decide⟩

end Sample

end HackStack.Lowering
