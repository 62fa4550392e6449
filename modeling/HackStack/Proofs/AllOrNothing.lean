import HackStack.Proofs.Jobs
import HackStack.Proofs.Rejections
import HackStack.Proofs.Trees
import Mathlib.Data.List.Forall2

set_option autoImplicit false

namespace HackStack

open Files

/-- One line that is rejected is enough for a source to be rejected. -/
theorem Command.read_ne_ok {file source : String} {line : List Char} {cause : Malformed}
    (hline : line ∈ Text.lines source.toList) (hcause : Command.readLine none line = .error cause)
    (commands : List Located) : Command.read file source ≠ .ok commands := by
  intro hread
  obtain ⟨i, hi⟩ := List.mem_iff_getElem?.1 hline
  have hn : (line, i + 1) ∈ (Text.lines source.toList).zipIdx 1 := by
    rw [List.mk_mem_zipIdx_iff_le_and_getElem?_sub]
    exact ⟨Nat.le_add_left 1 i, hi⟩
  have hverdict : verdict file line (i + 1) = some (cause.toError ⟨file, i + 1⟩) := by
    rw [verdict, hcause]
    rfl
  have hmem : cause.toError ⟨file, i + 1⟩ ∈
      ((Text.lines source.toList).zipIdx 1).filterMap fun l => verdict file l.1 l.2 :=
    List.mem_filterMap.2 ⟨_, hn, hverdict⟩
  have herror := (read_eq_error_iff file).2 ⟨List.ne_nil_of_mem hmem, rfl⟩
  cases hread.symm.trans herror

/-- Readings that report what they reject are gathered if none of them rejects anything. -/
theorem SourceUnit.gather_eq_ok_iff {readings : List (Except (List SourceError) SourceUnit)}
    {units : List SourceUnit} (h : .error [] ∉ readings) :
    SourceUnit.gather readings = .ok units ↔ readings = units.map .ok := by
  constructor
  · intro hgather
    simp only [SourceUnit.gather] at hgather
    split at hgather
    next hnone =>
      rw [List.isEmpty_iff, List.flatMap_eq_nil_iff] at hnone
      cases hgather
      induction readings with
      | nil => rfl
      | cons reading readings ih =>
        obtain ⟨hreading, hrest⟩ := List.forall_mem_cons.1 hnone
        rw [List.mem_cons, not_or] at h
        cases reading with
        | ok unit => exact congrArg (.ok unit :: ·) (ih h.2 hrest)
        | error errors => exact absurd (congrArg Except.error hreading.symm) h.1
    next => cases hgather
  · rintro rfl
    have hunits : (units.map Except.ok).filterMap (Except.toOption (ε := List SourceError)) = units := by
      rw [List.filterMap_map]
      exact List.filterMap_some
    simp only [SourceUnit.gather, List.flatMap_map, hunits]
    simp

namespace Tool

variable {t u : Tree} {args : LowerArgs} {disk : Disk} {path : Path} {text : String}

def ReadsAs (t : Tree) (source : Path) (unit : SourceUnit) : Prop :=
  ∃ content, t.read source = .ok content ∧
    SourceUnit.read (unitName source) (source.fileName?.getD source.text) content = .ok unit

/-- The assembly of an input is that of all units of its sources, under valid options. -/
def Translates (t : Tree) (args : LowerArgs) (text : String) : Prop :=
  ∃ options sources units, args.options t = .ok options ∧ options.validate = .ok () ∧
    collectSources t args.input = .ok sources ∧ List.Forall₂ (ReadsAs t) sources units ∧
    text = Lowering.assemblyText options (args.mode.applies units options.entryPoint) units

structure Stores (disk : Disk) (t : Tree) (path : Path) (text : String) (u : Tree) : Prop where
  written : disk.write t path text = (none, u)
  current : u.current = t.current
  others : ∃ place, t.target path = .ok place ∧ ∀ q, q ≠ place → u.node? q = t.node? q
  read : u.read path = .ok text

def Fulfils (disk : Disk) (t u : Tree) : Request → Prop
  | .translate args output => ∃ text, Translates t args text ∧
    Stores disk t (output.getD (defaultOutput t args.input)) text u
  | .assemble input output => ∃ source program, t.read input = .ok source ∧
    Assembly.assemble source = .ok program ∧
    Stores disk t (output.getD (input.withExtension "hack")) program.binary u
  | .run args budget => u = t ∧ ∃ options lowered machine,
    args.assembly t = .ok (options, lowered) ∧ execute lowered.text budget = .ok machine
  | .initConfig path => Stores disk t path (Options.text {}) u
  | .version | .help => u = t

theorem readsAs_iff {source : Path} {unit : SourceUnit} :
    ReadsAs t source unit ↔ loadUnit t source = .ok unit := by
  unfold ReadsAs loadUnit
  cases t.read source with
  | error cause => simp
  | ok content => simp

theorem loadUnit_ne_error_nil (source : Path) : loadUnit t source ≠ .error [] := by
  unfold loadUnit
  cases t.read source with
  | error cause => simp
  | ok content =>
    intro h
    cases hread : Command.read (source.fileName?.getD source.text) content with
    | ok commands => simp [SourceUnit.read, hread] at h
    | error errors =>
      simp only [SourceUnit.read, hread] at h
      cases h
      exact ((Command.read_eq_error_iff _).1 hread).1 rfl

theorem loadUnits_eq_ok_iff {sources : List Path} {units : List SourceUnit} :
    loadUnits t sources = .ok units ↔ List.Forall₂ (ReadsAs t) sources units := by
  have hreported : .error [] ∉ sources.map (loadUnit t) := by
    intro h
    obtain ⟨source, -, hsource⟩ := List.mem_map.1 h
    exact loadUnit_ne_error_nil source hsource
  have hgather : loadUnits t sources = .ok units ↔
      SourceUnit.gather (sources.map (loadUnit t)) = .ok units := by
    unfold loadUnits
    cases SourceUnit.gather (sources.map (loadUnit t)) with
    | error errors => simp
    | ok units' => simp
  calc loadUnits t sources = .ok units
    _ ↔ sources.map (loadUnit t) = units.map .ok :=
      hgather.trans (SourceUnit.gather_eq_ok_iff hreported)
    _ ↔ List.Forall₂ (· = ·) (sources.map (loadUnit t)) (units.map .ok) := by
      rw [List.forall₂_eq_eq_eq]
    _ ↔ List.Forall₂ (ReadsAs t) sources units := by
      rw [List.forall₂_map_left_iff, List.forall₂_map_right_iff]
      simp only [← readsAs_iff]

theorem readText_eq_ok_iff {source : String} :
    readText t path = .ok source ↔ t.read path = .ok source := by
  unfold readText
  cases t.read path with
  | error cause => simp
  | ok content => simp

theorem assembleText_eq_ok_iff {program : Assembly.Program} :
    assembleText text = .ok program ↔ Assembly.assemble text = .ok program := by
  unfold assembleText
  cases Assembly.assemble text with
  | error errors => simp
  | ok program' => simp

theorem validate_options {options : Options} (h : args.options t = .ok options) :
    options.validate = .ok () := by
  unfold LowerArgs.options at h
  dsimp only at h
  -- The options are checked in the same way with a file of options and without one.
  split at h
  all_goals
    obtain ⟨base, -, h⟩ := bind_eq_ok h
    split at h
    next => cases h
    next hvalid =>
      cases h
      exact hvalid

theorem lowerInput_eq_ok_iff {options : Options} {input : Path} {mode : BootstrapMode} :
    (∃ lowered, lowerInput t input options mode = .ok lowered ∧ lowered.text = text) ↔
      ∃ sources units, collectSources t input = .ok sources ∧
        List.Forall₂ (ReadsAs t) sources units ∧
        text = Lowering.assemblyText options (mode.applies units options.entryPoint) units := by
  constructor
  · rintro ⟨lowered, h, rfl⟩
    obtain ⟨sources, hsources, h⟩ := bind_eq_ok h
    obtain ⟨units, hunits, h⟩ := bind_eq_ok h
    cases h
    exact ⟨sources, units, hsources, loadUnits_eq_ok_iff.1 hunits, rfl⟩
  · rintro ⟨sources, units, hsources, hunits, rfl⟩
    rw [lowerInput, hsources]
    change ∃ lowered, (loadUnits t sources >>= _) = Except.ok lowered ∧ _
    rw [loadUnits_eq_ok_iff.2 hunits]
    exact ⟨_, rfl, rfl⟩

theorem lower_eq_ok_iff : (∃ options lowered, args.lower t = .ok (options, lowered) ∧
    lowered.text = text) ↔ Translates t args text := by
  constructor
  · rintro ⟨options, lowered, h, htext⟩
    obtain ⟨options', hoptions, h⟩ := bind_eq_ok h
    obtain ⟨lowered', hlowered, h⟩ := bind_eq_ok h
    cases h
    obtain ⟨sources, units, hsources, hunits, htext⟩ :=
      lowerInput_eq_ok_iff.1 ⟨lowered, hlowered, htext⟩
    exact ⟨options, sources, units, hoptions, validate_options hoptions, hsources, hunits, htext⟩
  · rintro ⟨options, sources, units, hoptions, -, hsources, hunits, htext⟩
    obtain ⟨lowered, hlowered, htext⟩ :=
      lowerInput_eq_ok_iff.2 ⟨sources, units, hsources, hunits, htext⟩
    refine ⟨options, lowered, ?_, htext⟩
    rw [LowerArgs.lower, hoptions]
    change (lowerInput t args.input options args.mode >>= _) = _
    rw [hlowered]
    rfl

section Writing

variable (hdisk : disk.Atomic)
include hdisk

/-- An atomic disk that accepts a text has stored it. -/
theorem stores_iff : Stores disk t path text u ↔ disk.write t path text = (none, u) := by
  refine ⟨Stores.written, fun h => ?_⟩
  rcases hdisk t path text with ⟨cause, hwrite⟩ | ⟨u', hwrite, htree⟩
  · cases h.symm.trans hwrite
  · cases h.symm.trans hwrite
    obtain ⟨place, htarget, hcurrent, -, hothers⟩ := Tree.write_spec htree
    exact ⟨h, hcurrent, ⟨place, htarget, hothers⟩, Tree.read_of_write htree⟩

/-- A request succeeds exactly if the files can become what it asks for. -/
theorem fulfils_iff (request : Request) :
    Fulfils disk t u request ↔ Job.Succeeds (Job.ofRequest disk request) { tree := t } u := by
  cases request with
  | translate args output =>
    rw [Job.ofRequest, Job.succeeds_look_bind]
    constructor
    · rintro ⟨text, htext, hstores⟩
      obtain ⟨options, lowered, hlower, rfl⟩ := lower_eq_ok_iff.2 htext
      refine ⟨(options, lowered), hlower, ?_⟩
      rw [Job.succeeds_warn_bind, Job.succeeds_look_bind]
      refine ⟨_, rfl, ?_⟩
      rw [Job.succeeds_bind_say, Job.succeeds_store]
      exact hstores.written
    · rintro ⟨⟨options, lowered⟩, hlower, h⟩
      rw [Job.succeeds_warn_bind, Job.succeeds_look_bind] at h
      obtain ⟨path, hpath, h⟩ := h
      cases hpath
      rw [Job.succeeds_bind_say, Job.succeeds_store] at h
      exact ⟨_, lower_eq_ok_iff.1 ⟨options, lowered, hlower, rfl⟩, (stores_iff hdisk).2 h⟩
  | assemble input output =>
    rw [Job.ofRequest, Job.succeeds_look_bind]
    constructor
    · rintro ⟨source, program, hread, hassemble, hstores⟩
      refine ⟨program, ?_, ?_⟩
      · rw [readText_eq_ok_iff.2 hread, ← assembleText_eq_ok_iff.2 hassemble]
        exact pure_bind source assembleText
      · rw [Job.succeeds_bind_say, Job.succeeds_store]
        exact hstores.written
    · rintro ⟨program, hprogram, h⟩
      rw [Job.succeeds_bind_say, Job.succeeds_store] at h
      obtain ⟨source, hread, hassemble⟩ := bind_eq_ok hprogram
      exact ⟨source, program, readText_eq_ok_iff.1 hread, assembleText_eq_ok_iff.1 hassemble,
        (stores_iff hdisk).2 h⟩
  | run args budget =>
    rw [Job.ofRequest, Job.succeeds_look_bind]
    constructor
    · rintro ⟨rfl, options, lowered, machine, hassembly, hmachine⟩
      refine ⟨(options, lowered), hassembly, ?_⟩
      rw [Job.succeeds_warn_bind, Job.succeeds_look_bind]
      exact ⟨machine, hmachine, Job.succeeds_say.2 rfl⟩
    · rintro ⟨⟨options, lowered⟩, hassembly, h⟩
      rw [Job.succeeds_warn_bind, Job.succeeds_look_bind] at h
      obtain ⟨machine, hmachine, h⟩ := h
      exact ⟨(Job.succeeds_say.1 h).symm, options, lowered, machine, hassembly, hmachine⟩
  | initConfig path => rw [Job.ofRequest, Job.succeeds_store, Fulfils, stores_iff hdisk]
  | version | help => exact eq_comm.trans (Iff.symm Job.succeeds_say)

end Writing

/-- What makes a request fail before it writes: options that cannot be used, a line of some source
that is rejected, or a program that cannot be assembled. -/
inductive Flawed (t : Tree) : Request → Prop where
  | options {args : LowerArgs} {output : Option Path} {failure : Failure}
      (h : args.options t = .error failure) : Flawed t (.translate args output)
  | line {args : LowerArgs} {output : Option Path} {sources : List Path} {source : Path}
      {content : String} {line : List Char} {cause : Command.Malformed}
      (hsources : collectSources t args.input = .ok sources) (hsource : source ∈ sources)
      (hcontent : t.read source = .ok content) (hline : line ∈ Text.lines content.toList)
      (hcause : Command.readLine none line = .error cause) : Flawed t (.translate args output)
  | assembly {input : Path} {output : Option Path} {content : String}
      {errors : List Assembly.Error} (hcontent : t.read input = .ok content)
      (herrors : Assembly.assemble content = .error errors) : Flawed t (.assemble input output)

theorem Flawed.not_fulfils {request : Request} (h : Flawed t request) :
    ¬ Fulfils disk t u request := by
  cases h with
  | options h =>
    rintro ⟨text, ⟨options, sources, units, hoptions, -⟩, -⟩
    cases h.symm.trans hoptions
  | line hsources hsource hcontent hline hcause =>
    rintro ⟨text, ⟨options, sources', units, -, -, hsources', hunits, -⟩, -⟩
    cases hsources.symm.trans hsources'
    obtain ⟨hlength, hreads⟩ := List.forall₂_iff_get.1 hunits
    obtain ⟨i, rfl⟩ := List.mem_iff_get.1 hsource
    obtain ⟨content, hread, hunit⟩ := hreads i.1 i.2 (hlength ▸ i.2)
    cases hcontent.symm.trans hread
    obtain ⟨commands, hcommands, -⟩ := map_eq_ok hunit
    exact Command.read_ne_ok hline hcause commands hcommands
  | assembly hcontent herrors =>
    rintro ⟨source, program, hread, hassemble, -⟩
    cases hcontent.symm.trans hread
    cases herrors.symm.trans hassemble

/-- On the plain disk the tool in place is the tool. On every disk that stores a text as a whole or not
at all, and whatever the files and the arguments are, it changes nothing if it fails, and it succeeds
exactly if what the request asks for as a whole has been written. -/
theorem attend_all_or_nothing (hdisk : disk.Atomic) (t : Tree) (args : List String) :
    attend .plain t args = invoke t args ∧
    ((attend disk t args).exitCode ≠ 0 → (attend disk t args).tree = t) ∧
    ((attend disk t args).exitCode = 0 ↔
      ∃ request, request? args = some request ∧ Fulfils disk t (attend disk t args).tree request) ∧
    ∀ request, request? args = some request → Flawed t request →
      (attend disk t args).exitCode = 1 ∧ (attend disk t args).tree = t := by
  refine ⟨attend_plain t args, ?_⟩
  unfold attend
  cases request? args with
  | none => exact ⟨fun _ => rfl, by simp [Outcome.usage], by simp⟩
  | some request =>
    have hcareful := Job.careful_ofRequest hdisk request { tree := t }
    dsimp only
    unfold Outcome.ofJob
    cases hjob : Job.ofRequest disk request { tree := t } with
    | ok a w =>
      have hdone : Fulfils disk t w.tree request := (fulfils_iff hdisk request).2 ⟨a, w, hjob, rfl⟩
      refine ⟨fun h => absurd rfl h, ⟨fun _ => ⟨request, rfl, hdone⟩, fun _ => rfl⟩, ?_⟩
      intro request' hrequest hflawed
      cases hrequest
      exact absurd hdone hflawed.not_fulfils
    | error failure w =>
      have htree : w.tree = t := hcareful failure w hjob
      refine ⟨fun _ => htree, ⟨fun h => (by cases h), ?_⟩, fun _ _ _ => ⟨rfl, htree⟩⟩
      rintro ⟨request', hrequest, hfulfils⟩
      cases hrequest
      obtain ⟨a, v, hok, -⟩ := (fulfils_iff hdisk request).1 hfulfils
      cases hjob.symm.trans hok

section Sample

def badText : String := "push constant 7\npop constant 1\n"

def badTree : Tree where
  current := ["w"]
  nodes := [(["w"], .directory), (["w", "Bad.vm"], .file badText.toUTF8)]

theorem read_badTree : badTree.read ⟨"Bad.vm"⟩ = .ok badText :=
  Tree.read_of_find (show badTree.find ⟨"Bad.vm"⟩ = .ok (["w", "Bad.vm"], _) from rfl)

theorem flawed_badTree : Flawed badTree (.translate { input := ⟨"Bad.vm"⟩ } none) := by
  have hline : "pop constant 1".toList ∈ Text.lines badText.toList :=
    List.mem_cons_of_mem _ List.mem_cons_self
  have hsources : collectSources badTree ⟨"Bad.vm"⟩ = .ok [⟨"Bad.vm"⟩] := rfl
  have hcause : Command.readLine none "pop constant 1".toList = .error .popConstant := rfl
  exact .line hsources List.mem_cons_self read_badTree hline hcause

/-- The bad line keeps the assembly from being written, but not a configuration. -/
theorem attend_all_or_nothing_bad : Disk.plain.Atomic ∧
    Flawed badTree (.translate { input := ⟨"Bad.vm"⟩ } none) ∧
    (invoke badTree ["translate", "Bad.vm"]).exitCode = 1 ∧
    (invoke badTree ["translate", "Bad.vm"]).tree = badTree ∧
    (invoke badTree ["init-config"]).exitCode = 0 ∧
    (invoke badTree ["init-config"]).tree.read ⟨"vmt.json"⟩ = .ok (Options.text {}) := by
  obtain ⟨htranslate, -, -, hflawed⟩ :=
    attend_all_or_nothing Disk.atomic_plain badTree ["translate", "Bad.vm"]
  obtain ⟨hinit, -, hdone, -⟩ := attend_all_or_nothing Disk.atomic_plain badTree ["init-config"]
  rw [htranslate] at hflawed
  rw [hinit] at hdone
  have hcode : (invoke badTree ["init-config"]).exitCode = 0 := rfl
  obtain ⟨hfailed, hsame⟩ := hflawed _ rfl flawed_badTree
  have hinitConfig : request? ["init-config"] = some (.initConfig ⟨"vmt.json"⟩) := rfl
  obtain ⟨request, hrequest, hfulfils⟩ := hdone.1 hcode
  cases hinitConfig.symm.trans hrequest
  exact ⟨Disk.atomic_plain, flawed_badTree, hfailed, hsame, hcode, Stores.read hfulfils⟩

end Sample

end Tool

end HackStack
