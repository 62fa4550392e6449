import HackStack.Proofs.AllOrNothing
import HackStack.Proofs.LineGrammar
import HackStack.Proofs.SourceFiles
import HackStack.Proofs.Statics

set_option autoImplicit false

namespace HackStack

open Files Assembly Text

namespace Lowering

section Symbols

def MadeOf (unit : String) (s : Statement) : Prop :=
  (∃ index, s = .symbol (staticSymbol unit index)) ∨
    ∃ op position, s = .label (trueLabel unit op position) ∨ s = .label (endLabel unit op position)

theorem isSymbol_of_append {name rest : List Char} (hne : name ≠ []) (h : isSymbol (name ++ rest)) :
    isSymbol name := by
  cases name with
  | nil => exact absurd rfl hne
  | cons c name =>
    rw [List.cons_append, isSymbol, List.all_append, Bool.and_eq_true, Bool.and_eq_true] at h
    rw [isSymbol, h.1, h.2.1]
    rfl

/-- What is made of the name of a unit is read back as it is exactly if the name is a symbol. -/
theorem isSymbol_iff_read {unit : String} (hne : unit ≠ "") :
    isSymbol unit.toList ↔ ∀ s, MadeOf unit s → readLine s.text.toList = .ok (some s) := by
  constructor
  · rintro hunit s (⟨index, rfl⟩ | ⟨op, position, rfl | rfl⟩)
    · exact Statement.readLine_text (s := .symbol _) (isSymbol_suffixed hunit index.toNat)
    · exact Statement.readLine_text (s := .label _) (isSymbol_comparison hunit op position).1
    · exact Statement.readLine_text (s := .label _) (isSymbol_comparison hunit op position).2
  · intro hread
    have hstatic := hread (.symbol (staticSymbol unit 0)) (.inl ⟨0, rfl⟩)
    obtain ⟨-, hsymbol⟩ := says_squeeze_iff.1 (says_iff.2 hstatic)
    rw [staticSymbol, String.toList_append, String.toList_append, List.append_assoc] at hsymbol
    exact isSymbol_of_append (mt String.toList_eq_nil_iff.1 hne) hsymbol

/-- References to a static of two units whose names differ in white space only are read as the same. -/
theorem readLine_static {unit other : String} (hunit : '/' ∉ unit.toList) (hother : '/' ∉ other.toList)
    (h : squeeze unit.toList = squeeze other.toList) (index : Word) :
    readLine (Statement.symbol (staticSymbol unit index)).text.toList =
      readLine (Statement.symbol (staticSymbol other index)).text.toList := by
  have hsqueezed {name : String} (hname : '/' ∉ name.toList) :
      squeeze (beforeComment (Statement.symbol (staticSymbol name index)).text.toList) =
        '@' :: (squeeze name.toList ++ squeeze ('.' :: Decimal.digits index.toNat)) := by
    have htext : (Statement.symbol (staticSymbol name index)).text.toList =
        '@' :: (name.toList ++ '.' :: Decimal.digits index.toNat) := by
      rw [Statement.text_symbol]
      exact congrArg _ (suffixed_toList name index.toNat)
    have hdigits : '/' ∉ Decimal.digits index.toNat := fun hmem =>
      absurd (Decimal.isDigit_of_mem_digits hmem) (by decide)
    rw [htext, beforeComment, beforeCommentFrom_of_not_mem (by simp [hname, hdigits])]
    exact congrArg ('@' :: ·) (List.filter_append _ _)
  unfold readLine
  rw [hsqueezed hunit, hsqueezed hother, h]

end Symbols

end Lowering

namespace Tool

variable {t : Tree} {input : Path} {sources : List Path} {stems : List String} {units : List SourceUnit}

/-- Names that keep units apart and that the assembler takes. -/
structure UsableNames (units : List SourceUnit) : Prop where
  distinct : (units.map (·.name)).Nodup
  symbols : ∀ u ∈ units, isSymbol u.name.toList

theorem ReadsAs.name {source : Path} {unit : SourceUnit} (h : ReadsAs t source unit) :
    unit.name = unitName source := by
  obtain ⟨content, -, hread⟩ := h
  obtain ⟨commands, -, rfl⟩ := map_eq_ok hread
  rfl

theorem exists_stems (h : ∀ source ∈ sources, ∃ stem, Path.SourceOf source stem) :
    ∃ stems, List.Forall₂ Path.SourceOf sources stems := by
  induction sources with
  | nil => exact ⟨[], .nil⟩
  | cons source sources ih =>
    obtain ⟨⟨stem, hstem⟩, hrest⟩ := List.forall_mem_cons.1 h
    obtain ⟨stems, hstems⟩ := ih hrest
    exact ⟨stem :: stems, .cons hstem hstems⟩

theorem map_fileName? (h : List.Forall₂ Path.SourceOf sources stems) :
    sources.map Path.fileName? = stems.map fun stem => some (stem ++ ".vm") := by
  induction h with
  | nil => rfl
  | cons hstem _ ih => rw [List.map_cons, List.map_cons, hstem.fileName?, ih]

theorem map_name (h : List.Forall₂ Path.SourceOf sources stems)
    (hunits : List.Forall₂ (ReadsAs t) sources units) : units.map (·.name) = stems.map stemName := by
  induction h generalizing units with
  | nil =>
    cases hunits
    rfl
  | cons hstem _ ih =>
    cases hunits with
    | cons hunit hunits => rw [List.map_cons, List.map_cons, hunit.name, hstem.unitName, ih hunits]

theorem isSymbol_stemName {stem : String} :
    isSymbol (stemName stem).toList ↔ stem = "" ∨ isSymbol stem.toList := by
  unfold stemName
  split
  next hempty => exact iff_of_true (by decide) (.inl hempty)
  next hne => exact ⟨.inr, fun h => h.resolve_left hne⟩

theorem stemName_ne_empty (stem : String) : stemName stem ≠ "" := by
  unfold stemName
  split
  · decide
  · assumption

/-- Two stems have units of one name only if one is empty and the other the extension of sources. -/
theorem nodup_map_stemName : (stems.map stemName).Nodup ↔ stems.Nodup ∧ ("" ∈ stems → ".vm" ∉ stems) := by
  constructor
  · intro h
    refine ⟨h.of_map, fun hempty hdot => ?_⟩
    have heq := List.inj_on_of_nodup_map h hempty hdot rfl
    exact absurd heq (by decide)
  · rintro ⟨hnodup, hdot⟩
    refine hnodup.map_on fun x hx y hy heq => ?_
    unfold stemName at heq
    split_ifs at heq with hxempty hyempty hyempty
    · rw [hxempty, hyempty]
    · exact absurd (heq ▸ hy) (hdot (hxempty ▸ hx))
    · exact absurd (heq ▸ hx) (hdot (hyempty ▸ hy))
    · exact heq

theorem forall_name_iff (h : units.map (·.name) = stems.map stemName) (P : String → Prop) :
    (∀ u ∈ units, P u.name) ↔ ∀ stem ∈ stems, P (stemName stem) := by
  have hnames := congrArg (fun names => ∀ name ∈ names, P name) h
  simp only [List.forall_mem_map] at hnames
  exact Iff.of_eq hnames

theorem usableNames_iff (h : units.map (·.name) = stems.map stemName) : UsableNames units ↔
    stems.Nodup ∧ ("" ∈ stems → ".vm" ∉ stems) ∧ ∀ stem ∈ stems, stem = "" ∨ isSymbol stem.toList := by
  have hsymbols := forall_name_iff h fun name => isSymbol name.toList
  simp only [isSymbol_stemName] at hsymbols
  rw [← and_assoc, ← nodup_map_stemName, ← h, ← hsymbols]
  exact ⟨fun h => ⟨h.distinct, h.symbols⟩, fun h => ⟨h.1, h.2⟩⟩

theorem slash_stemNames (h : List.Forall₂ Path.SourceOf sources stems) :
    ∀ stem ∈ stems, '/' ∉ (stemName stem).toList := by
  induction h with
  | nil => exact List.forall_mem_nil _
  | cons hstem _ ih =>
    refine List.forall_mem_cons.2 ⟨?_, ih⟩
    unfold stemName
    split
    · decide
    · exact hstem.slash

theorem readable_of_isSymbol {source : Path} {stem : String} {unit : SourceUnit}
    (hstem : source.SourceOf stem) (hunit : ReadsAs t source unit) (hsymbol : isSymbol unit.name.toList) : unit.Readable := by
  have hline : '\n' ∉ (stem ++ ".vm").toList := by
    rw [hunit.name, hstem.unitName, isSymbol_stemName] at hsymbol
    refine no_lineFeed_append ?_ (by decide)
    obtain rfl | hsymbol := hsymbol
    · decide
    · exact no_lineFeed_symbol hsymbol
  obtain ⟨content, -, hread⟩ := id hunit
  rw [← hunit.name, hstem.fileName?, Option.getD_some] at hread
  exact ⟨hsymbol, stem ++ ".vm", content, hline, hread⟩

theorem forall_readable (h : List.Forall₂ Path.SourceOf sources stems)
    (hunits : List.Forall₂ (ReadsAs t) sources units) (hsymbols : ∀ u ∈ units, isSymbol u.name.toList) :
    ∀ u ∈ units, u.Readable := by
  induction h generalizing units with
  | nil =>
    cases hunits
    exact List.forall_mem_nil _
  | cons hstem _ ih =>
    cases hunits with
    | cons hunit hunits =>
      obtain ⟨hsymbol, hsymbols⟩ := List.forall_mem_cons.1 hsymbols
      exact List.forall_mem_cons.2 ⟨readable_of_isSymbol hstem hunit hsymbol, ih hunits hsymbols⟩

end Tool

namespace Lowering

variable {options : Options} (hoptions : options.validate = .ok ()) (withBootstrap : Bool)
  {units : List SourceUnit} (hunits : ∀ u ∈ units, u.Readable) {p : Program}
  (hp : assemble (assemblyText options withBootstrap units) = .ok p)
include hoptions hunits hp

/-- Statics of units with different names, none of them spelled like a label, have different cells. -/
theorem cells_ne {u v : SourceUnit} (hu : u ∈ units) (hv : v ∈ units) (hne : u.name ≠ v.name)
    (hlabels : ∀ u ∈ units, ∀ i ∈ u.statics,
      .statement (.label (staticSymbol u.name i)) ∉ program options withBootstrap units) :
    ∀ i ∈ u.statics, ∀ j ∈ v.statics, ∃ a b, p.address? (staticSymbol u.name i) = some a ∧
      p.address? (staticSymbol v.name j) = some b ∧ a ≠ b := by
  have hbinds := binds_programCode hoptions withBootstrap hunits hp
  simp only [label_mem_program] at hlabels
  intro i hi j hj
  have hfirst := static_mem_variableNames hu hi (hlabels u hu i hi)
  have hsecond := static_mem_variableNames hv hj (hlabels v hv j hj)
  obtain ⟨_, a, -, ha, -⟩ := hbinds.exists_variable hfirst
  obtain ⟨_, b, -, hb, -⟩ := hbinds.exists_variable hsecond
  refine ⟨a, b, ha, hb, ?_⟩
  rintro rfl
  have hsame := hbinds.variable_inj hfirst hsecond (ha.trans hb.symm)
  exact hne (staticSymbol_inj.1 hsame).1

end Lowering

namespace Tool

/-- The names of the units of an input. They are the stems of its files, or the extension where the stem is
empty, and the stems are distinct if the path has no wildcards. The names are usable exactly if the stems are
distinct, are not both empty and the extension, and are symbols where not empty. What is made of a name is
read back exactly if it is a symbol, and of names that differ in white space only the same is read. Under
usable names every line of the assembly is read, and statics that are not spelled like labels have cells
apart from those of other units. -/
theorem unit_names_usable_iff {t : Tree} {input : Path} {sources : List Path} {units : List SourceUnit}
    (hsources : collectSources t input = .ok sources) (hunits : loadUnits t sources = .ok units) :
    ∃ stems : List String,
      sources.map Path.fileName? = stems.map (fun stem => some (stem ++ ".vm")) ∧
      units.map (·.name) = stems.map (fun stem => if stem = "" then ".vm" else stem) ∧
      (t.Proper → Plain input.text.toList → stems.Nodup) ∧
      (UsableNames units ↔
        stems.Nodup ∧ ("" ∈ stems → ".vm" ∉ stems) ∧ ∀ stem ∈ stems, stem = "" ∨ isSymbol stem.toList) ∧
      (∀ u ∈ units, isSymbol u.name.toList ↔
        ∀ s, Lowering.MadeOf u.name s → readLine s.text.toList = .ok (some s)) ∧
      (∀ u ∈ units, ∀ v ∈ units, squeeze u.name.toList = squeeze v.name.toList → ∀ index,
        readLine (Statement.symbol (Lowering.staticSymbol u.name index)).text.toList =
          readLine (Statement.symbol (Lowering.staticSymbol v.name index)).text.toList) ∧
      (UsableNames units → ∀ options withBootstrap, options.validate = .ok () →
        (∃ lines, Assembly.read (Lowering.assemblyText options withBootstrap units) = .ok lines) ∧
        ∀ p, Assembly.assemble (Lowering.assemblyText options withBootstrap units) = .ok p →
          (∀ u ∈ units, ∀ i ∈ u.statics, .statement (.label (Lowering.staticSymbol u.name i)) ∉
            Lowering.program options withBootstrap units) →
          units.Pairwise fun u v => ∀ i ∈ u.statics, ∀ j ∈ v.statics, ∃ a b,
            p.address? (Lowering.staticSymbol u.name i) = some a ∧
              p.address? (Lowering.staticSymbol v.name j) = some b ∧ a ≠ b) := by
  rw [loadUnits_eq_ok_iff] at hunits
  obtain ⟨stems, hstems⟩ := exists_stems (exists_stem hsources)
  have hfiles := map_fileName? hstems
  have hnames := map_name hstems hunits
  have hslash := (forall_name_iff hnames fun name => '/' ∉ name.toList).2 (slash_stemNames hstems)
  have hne := (forall_name_iff hnames fun name => name ≠ "").2 fun stem _ => stemName_ne_empty stem
  refine ⟨stems, hfiles, hnames, fun ht hplain => ?_, usableNames_iff hnames,
    fun u hu => Lowering.isSymbol_iff_read (hne u hu),
    fun u hu v hv => Lowering.readLine_static (hslash u hu) (hslash v hv),
    fun husable options withBootstrap hoptions => ?_⟩
  · have hnodup := fileNames_nodup ht hplain hsources
    rw [hfiles] at hnodup
    exact hnodup.of_map
  · have hreadable := forall_readable hstems hunits husable.symbols
    obtain ⟨lines, hread, -⟩ := read_render (Lowering.program_writable hoptions withBootstrap hreadable)
    refine ⟨⟨lines, hread⟩, fun p hp hlabels => ?_⟩
    refine (List.pairwise_map.1 husable.distinct).imp_of_mem fun hu hv hne => ?_
    exact Lowering.cells_ne hoptions withBootstrap hreadable hp hu hv hne hlabels

section Sample

def blankTree : Tree :=
  ⟨[], [(["prog"], .directory), (["prog", "a b.vm"], .file "pop static 0".toUTF8),
    (["prog", "ab.vm"], .file "push static 0".toUTF8)]⟩

def blankUnits : List SourceUnit :=
  [⟨"a b", [⟨.pop .static 0, "a b.vm", 1⟩]⟩, ⟨"ab", [⟨.push .static 0, "ab.vm", 1⟩]⟩]

theorem collectSources_blankTree :
    collectSources blankTree ⟨"prog"⟩ = .ok [⟨"prog/a b.vm"⟩, ⟨"prog/ab.vm"⟩] := by
  have hchildren : blankTree.children ["prog"] = ["a b.vm", "ab.vm"] := List.mergeSort_of_pairwise (by decide)
  have hplace : blankTree.directory? ⟨"prog"⟩ = some ["prog"] := rfl
  have hentered : paths blankTree [.literal ['p', 'r', 'o', 'g'], .entries sourceTokens] ⟨"."⟩ =
      paths blankTree [.entries sourceTokens] ⟨"prog"⟩ := rfl
  have hentries := paths_entries hplace sourceTokens []
  rw [hchildren] at hentries
  have hsearch : search blankTree (Path.join ⟨"prog"⟩ "*.vm") = .ok [⟨"prog/a b.vm"⟩, ⟨"prog/ab.vm"⟩] :=
    congrArg Except.ok (hentered.trans hentries)
  have hordered : [(⟨"prog/a b.vm"⟩ : Path), ⟨"prog/ab.vm"⟩].Pairwise fun p q => p.le q := by decide
  have hdirectory : blankTree.isDirectory ⟨"prog"⟩ := by decide
  rw [collectSources, if_pos hdirectory, hsearch]
  exact congrArg Except.ok (List.mergeSort_of_pairwise hordered)

theorem unit_names_blank :
    collectSources blankTree ⟨"prog"⟩ = .ok [⟨"prog/a b.vm"⟩, ⟨"prog/ab.vm"⟩] ∧
      loadUnits blankTree [⟨"prog/a b.vm"⟩, ⟨"prog/ab.vm"⟩] = .ok blankUnits ∧
      (blankUnits.map (·.name)).Nodup ∧ ¬ UsableNames blankUnits ∧
      readLine "@a b.0".toList = readLine "@ab.0".toList ∧
      collectSources blankTree ⟨"prog/ab.vm"⟩ = .ok [⟨"prog/ab.vm"⟩] ∧
      UsableNames (blankUnits.drop 1) ∧
      ∃ lines, Assembly.read (Lowering.assemblyText {} false (blankUnits.drop 1)) = .ok lines := by
  have hunits : loadUnits blankTree [⟨"prog/a b.vm"⟩, ⟨"prog/ab.vm"⟩] = .ok blankUnits := rfl
  have hsource : collectSources blankTree ⟨"prog/ab.vm"⟩ = .ok [⟨"prog/ab.vm"⟩] := rfl
  have halone : loadUnits blankTree [⟨"prog/ab.vm"⟩] = .ok (blankUnits.drop 1) := rfl
  have husable : UsableNames (blankUnits.drop 1) := ⟨by decide, by decide⟩
  obtain ⟨-, -, -, -, -, -, hread, -⟩ := unit_names_usable_iff collectSources_blankTree hunits
  obtain ⟨-, -, -, -, -, -, -, hassembly⟩ := unit_names_usable_iff hsource halone
  refine ⟨collectSources_blankTree, hunits, by decide, fun h => ?_, ?_, hsource, husable,
    (hassembly husable {} false rfl).1⟩
  · exact absurd (h.symbols _ List.mem_cons_self) (by decide)
  · exact hread _ List.mem_cons_self _ (List.mem_cons_of_mem _ List.mem_cons_self) (by decide) 0

end Sample

end Tool

end HackStack
