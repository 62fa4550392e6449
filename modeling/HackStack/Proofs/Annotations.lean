import HackStack.Proofs.Generated

set_option autoImplicit false

namespace HackStack

open Assembly Text

namespace Assembly

namespace Labels

variable {l m : Labels}

theorem next_congr {s t : Numbered} (h : s.statement = t.statement) (htable : l.table = m.table)
    (haddress : l.address = m.address) :
    (l.next s).table = (m.next t).table ∧ (l.next s).address = (m.next t).address := by
  simp only [next, h, htable, haddress]
  split
  · split
    · exact ⟨rfl, rfl⟩
    · exact ⟨rfl, rfl⟩
  · exact ⟨rfl, rfl⟩

/-- The labels are bound by the statements alone, whatever lines they stand on. -/
theorem table_run_congr {source other : List Numbered}
    (h : source.map (·.statement) = other.map (·.statement)) (htable : l.table = m.table)
    (haddress : l.address = m.address) :
    (source.foldl next l).table = (other.foldl next m).table := by
  induction source generalizing other l m with
  | nil =>
    obtain rfl := List.map_eq_nil_iff.1 h.symm
    exact htable
  | cons s source ih =>
    obtain ⟨t, rest, rfl, ht, hrest⟩ := List.map_eq_cons_iff.1 h.symm
    obtain ⟨htable, haddress⟩ := next_congr ht.symm htable haddress
    rw [List.foldl_cons, List.foldl_cons]
    exact ih hrest.symm htable haddress

end Labels

theorem assemble_of_outcomes {source other : String} {p : Program}
    (h : outcomes source.toList = outcomes other.toList) (hp : assemble source = .ok p) :
    assemble other = .ok p := by
  obtain ⟨lines, hread, hp⟩ := bind_eq_ok hp
  obtain ⟨labels, hlabels, hp⟩ := bind_eq_ok hp
  cases hp
  obtain ⟨others, hother, hsame⟩ :=
    exists_read_iff.2 (h ▸ exists_read_iff.1 ⟨lines, hread, rfl⟩)
  obtain ⟨hfits, htable⟩ := bindLabels_eq_ok.1 hlabels
  have hbind : bindLabels others = .ok labels :=
    bindLabels_eq_ok.2 ⟨hsame.symm ▸ hfits, (Labels.table_run_congr hsame rfl rfl).trans htable⟩
  rw [assemble_of_read hother, hbind]
  change Except.ok (encodeWith labels others) = Except.ok (encodeWith labels lines)
  rw [encodeWith_eq, encodeWith_eq, hsame]

/-- Two sources with the same outcomes are the same to the assembler. -/
theorem assemble_congr {source other : String} (h : outcomes source.toList = outcomes other.toList)
    (p : Program) : assemble source = .ok p ↔ assemble other = .ok p :=
  ⟨assemble_of_outcomes h, assemble_of_outcomes h.symm⟩

end Assembly

namespace Lowering

/-- With annotations, a text shows its bootstrap and every command in a comment, and without them it has
no comment. Either text is assembled exactly if the other is, and then to the same program. -/
theorem annotations_inert {options : Options} (hoptions : options.validate = .ok ())
    (withBootstrap : Bool) {units : List SourceUnit}
    (hunits : ∀ u ∈ units, ∀ c ∈ u.commands, c.FromReader) :
    let annotated : Options := { options with annotate := true }
    let bare : Options := { options with annotate := false }
    comments (program annotated withBootstrap units) =
        (if withBootstrap then [bootNote options] else []) ++
          (units.flatMap (·.commands)).map (·.text) ∧
      comments (program bare withBootstrap units) = [] ∧
      ∀ p, assemble (assemblyText annotated withBootstrap units) = .ok p ↔
        assemble (assemblyText bare withBootstrap units) = .ok p := by
  intro annotated bare
  refine ⟨comments_program annotated withBootstrap units, comments_program bare withBootstrap units,
    assemble_congr ?_⟩
  -- The choice to annotate is all that differs, and it takes no part in the code of a site.
  have hcode : programCode annotated withBootstrap units = programCode bare withBootstrap units := rfl
  have hannotated : annotated.validate = .ok () := hoptions
  have hbare : bare.validate = .ok () := hoptions
  rw [assemblyText, assemblyText, outcomes_render, outcomes_render,
    flatMap_outcomes (comments_program_line hannotated _ hunits),
    flatMap_outcomes (comments_program_line hbare _ hunits), statements_program, statements_program,
    hcode]

section Sample

def brokenUnit : SourceUnit where
  name := "a\r\n@b"
  commands := [⟨.push .static 3, "c\r//d", 1⟩]

theorem brokenUnit_fromReader : ∀ u ∈ [brokenUnit], ∀ c ∈ u.commands, c.FromReader := by
  intro u hu c hc
  obtain rfl := List.mem_singleton.1 hu
  obtain rfl := List.mem_singleton.1 hc
  exact ⟨by decide, "push static 3", _, rfl, List.mem_singleton_self _⟩

def brokenCode : List Statement :=
  .symbol "a" :: .symbol "b.3" :: .assign .toD (.y .m) :: pushD

theorem outcomes_brokenUnit :
    outcomes (assemblyText { annotate := false } false [brokenUnit]).toList = brokenCode.map .ok :=
  (outcomes_render _).trans rfl

/-- The name of the unit comes apart into two loads of an address, below the comment and without it. -/
theorem annotations_inert_brokenUnit :
    comments (program { annotate := true } false [brokenUnit]) = ["push static 3 (c\r//d:1)"] ∧
    ∃ p, assemble (assemblyText { annotate := true } false [brokenUnit]) = .ok p ∧
      assemble (assemblyText { annotate := false } false [brokenUnit]) = .ok p := by
  have hoptions : Options.validate {} = .ok () := rfl
  obtain ⟨hshown, -, hsame⟩ := annotations_inert hoptions false brokenUnit_fromReader
  obtain ⟨lines, hread, hlines⟩ := exists_read_iff.2 outcomes_brokenUnit
  have hbind : Bindable brokenCode ∧ codeSize brokenCode ≤ romSize := by
    rw [Bindable]
    decide
  obtain ⟨p, hp⟩ := (exists_assemble_iff hread).2 (hlines.symm ▸ hbind)
  exact ⟨hshown.trans rfl, p, (hsame p).2 hp, hp⟩

end Sample

end Lowering

end HackStack
