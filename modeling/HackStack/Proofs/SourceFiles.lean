import HackStack.Proofs.DirectorySources
import Mathlib.Data.List.TakeWhile

set_option autoImplicit false

namespace HackStack

open Files

structure Files.Path.SourceOf (p : Path) (stem : String) : Prop where
  slash : '/' ∉ stem.toList
  split : ∃ before, p.splitName? = some (before, stem.toList ++ ['.', 'v', 'm'])

/-- The name of the unit of a source. A dot at the start of a name begins no extension. -/
def Tool.stemName (stem : String) : String := if stem = "" then ".vm" else stem

namespace Files.Path

variable {p : Path} {stem : String}

theorem splitExtension_source (stem : List Char) :
    splitExtension (stem ++ ['.', 'v', 'm']) =
      if stem = [] then (['.', 'v', 'm'], none) else (stem, some ['v', 'm']) := by
  have hreverse : (stem ++ ['.', 'v', 'm']).reverse = 'm' :: 'v' :: '.' :: stem.reverse := by simp
  unfold splitExtension
  simp only [hreverse]
  cases hstem : stem.reverse with
  | nil =>
    obtain rfl := List.reverse_eq_nil_iff.1 hstem
    rfl
  | cons c rest =>
    obtain rfl : stem = (c :: rest).reverse := by rw [← hstem, List.reverse_reverse]
    rw [if_neg (by simp)]
    rfl

namespace SourceOf

theorem fileName? (h : p.SourceOf stem) : p.fileName? = some (stem ++ ".vm") := by
  obtain ⟨before, hsplit⟩ := h.split
  rw [Path.fileName?, hsplit, Option.map_some, String.ofList_append, String.ofList_toList]

theorem unitName (h : p.SourceOf stem) : Tool.unitName p = Tool.stemName stem := by
  obtain ⟨before, hsplit⟩ := h.split
  rw [Tool.unitName, stem?, hsplit, Option.map_some, Option.getD_some, splitExtension_source, Tool.stemName]
  by_cases hstem : stem = ""
  · subst hstem
    rfl
  · rw [if_neg (mt String.toList_eq_nil_iff.1 hstem), if_neg hstem, String.ofList_toList]

end SourceOf

def Whole (before : List Char) : Prop := before = [] ∨ ∃ above, before = above ++ ['/']

theorem exists_whole (text : List Char) :
    ∃ before last, text = before ++ last ∧ Whole before ∧ '/' ∉ last := by
  induction text using List.reverseRecOn with
  | nil => exact ⟨[], [], rfl, .inl rfl, List.not_mem_nil⟩
  | append_singleton text c ih =>
    obtain ⟨before, last, rfl, hwhole, hlast⟩ := ih
    by_cases hc : c = '/'
    · exact ⟨before ++ last ++ [c], [], by simp, .inr ⟨_, by rw [hc]⟩, List.not_mem_nil⟩
    · refine ⟨before, last ++ [c], List.append_assoc .., hwhole, ?_⟩
      simpa [hlast] using Ne.symm hc

theorem splitName?_source {before stem : List Char} (h : p.text.toList = before ++ (stem ++ ['.', 'v', 'm']))
    (hwhole : Whole before) (hstem : '/' ∉ stem) :
    p.splitName? = some (before, stem ++ ['.', 'v', 'm']) := by
  have hreverse : p.text.toList.reverse = 'm' :: 'v' :: '.' :: (stem.reverse ++ before.reverse) := by
    simp [h]
  have hkept : ∀ c ∈ stem.reverse, (c != '/') = true := by
    intro c hc
    rw [bne_iff_ne]
    rintro rfl
    exact hstem (List.mem_reverse.1 hc)
  have htrim : trimTail p.text.toList.reverse = 'm' :: 'v' :: '.' :: (stem.reverse ++ before.reverse) := by
    rw [hreverse]
    rfl
  have htake : (stem.reverse ++ before.reverse).takeWhile (· != '/') = stem.reverse := by
    rw [List.takeWhile_append_of_pos hkept]
    obtain rfl | ⟨above, rfl⟩ := hwhole <;> simp
  have hdrop : (stem.reverse ++ before.reverse).dropWhile (· != '/') = before.reverse := by
    rw [List.dropWhile_append_of_pos hkept]
    obtain rfl | ⟨above, rfl⟩ := hwhole <;> simp
  have hname : ('m' :: 'v' :: '.' :: (stem.reverse ++ before.reverse)).takeWhile (· != '/') =
      'm' :: 'v' :: '.' :: stem.reverse := by simp [htake]
  have hbefore : ('m' :: 'v' :: '.' :: (stem.reverse ++ before.reverse)).dropWhile (· != '/') =
      before.reverse := by simp [hdrop]
  have hname' : ('m' :: 'v' :: '.' :: stem.reverse).reverse = stem ++ ['.', 'v', 'm'] := by simp
  have hdots {text : List Char} (hshort : text.length < 3) : stem ++ ['.', 'v', 'm'] ≠ text := by
    rintro rfl
    simp at hshort
  unfold splitName?
  simp only [htrim, hname, hbefore, hname', List.reverse_reverse]
  rw [if_neg]
  simp only [Bool.or_eq_true, decide_eq_true_eq, not_or]
  exact ⟨⟨hdots (by decide), hdots (by decide)⟩, hdots (by decide)⟩

theorem exists_sourceOf (h : ∃ start, p.text.toList = start ++ ['.', 'v', 'm']) :
    ∃ stem, p.SourceOf stem := by
  obtain ⟨start, hstart⟩ := h
  obtain ⟨before, stem, rfl, hwhole, hslash⟩ := exists_whole start
  rw [List.append_assoc] at hstart
  refine ⟨String.ofList stem, by rwa [String.toList_ofList], before, ?_⟩
  rw [String.toList_ofList, splitName?_source hstart hwhole hslash]

theorem sourceOf_of_extension (h : p.extension? = some "vm") : ∃ stem, p.SourceOf stem := by
  obtain ⟨⟨before, name⟩, hsplit, hextension⟩ := Option.bind_eq_some_iff.1 h
  have hslash : '/' ∉ name := by
    unfold splitName? at hsplit
    dsimp only at hsplit
    split at hsplit
    next => cases hsplit
    next =>
      cases hsplit
      intro hmem
      exact absurd (List.mem_takeWhile_imp (List.mem_reverse.1 hmem)) (by simp)
  obtain ⟨stem, rfl⟩ : ∃ stem, name = stem ++ ['.', 'v', 'm'] := by
    obtain ⟨extension, hextension, htext⟩ := Option.map_eq_some_iff.1 hextension
    unfold splitExtension at hextension
    dsimp only at hextension
    split at hextension
    next => cases hextension
    next => cases hextension
    next dot stem hne hdrop =>
      obtain rfl := Option.some.inj hextension
      have htake : name.reverse.takeWhile (· != '.') = ['m', 'v'] := by
        have hreverse := congrArg (fun s => s.toList.reverse) htext
        simpa using hreverse
      have hdot := List.head?_dropWhile_not (· != '.') name.reverse
      rw [hdrop] at hdot
      obtain rfl : dot = '.' := by simpa using hdot
      have hname := List.takeWhile_append_dropWhile (p := (· != '.')) (l := name.reverse)
      rw [htake, hdrop] at hname
      refine ⟨stem.reverse, ?_⟩
      rw [← List.reverse_reverse name, ← hname]
      simp
  refine ⟨String.ofList stem, ?_, before, ?_⟩
  · rw [String.toList_ofList]
    exact fun hmem => hslash (List.mem_append_left _ hmem)
  · rw [String.toList_ofList, hsplit]

end Files.Path

namespace Files

variable {t : Tree} {p q : Path} {name : String}

theorem text_entryPath (p : Path) (name : String) :
    ∃ before, (entryPath p name).text.toList = before ++ name.toList ∧ Path.Whole before := by
  unfold entryPath
  split
  · exact ⟨[], rfl, .inl rfl⟩
  · unfold Path.join
    split
    next => exact ⟨[], rfl, .inl rfl⟩
    next hlast =>
      obtain ⟨above, habove⟩ := List.getLast?_eq_some_iff.1 hlast
      exact ⟨p.text.toList, String.toList_append, .inr ⟨above, habove⟩⟩
    next =>
      refine ⟨p.text.toList ++ ['/'], ?_, .inr ⟨_, rfl⟩⟩
      rw [String.toList_append, String.toList_append]
      rfl

def EndsAsSource (p : Path) : Prop := ∃ start, p.text.toList = start ++ ['.', 'v', 'm']

theorem endsAsSource_entryPath (h : matchesName sourceTokens name.toList) :
    EndsAsSource (entryPath p name) := by
  obtain ⟨stem, hstem⟩ := matchesName_sourceTokens.1 h
  obtain ⟨before, hbefore, -⟩ := text_entryPath p name
  exact ⟨before ++ stem, by rw [hbefore, hstem, List.append_assoc]⟩

def Step.IsLast (step : Step) : Prop := step = .entries sourceTokens ∨ step = .below sourceTokens

theorem endsAsSource_of_last {step : Step} (hstep : step.IsLast) (h : q ∈ paths t [step] p) :
    EndsAsSource q := by
  obtain rfl | rfl := hstep
  · obtain ⟨place, file, hfile, rfl⟩ := mem_paths_sources h
    exact endsAsSource_entryPath (List.mem_filter.1 hfile).2
  · rw [paths] at h
    split at h
    next => cases h
    next =>
      obtain ⟨names, -, hq⟩ := List.mem_flatMap.1 h
      split at hq
      next hform =>
        obtain rfl := List.mem_singleton.1 hq
        cases hlast : names.getLast? with
        | none =>
          rw [hlast] at hform
          exact absurd hform (by decide)
        | some name =>
          obtain ⟨above, rfl⟩ := List.getLast?_eq_some_iff.1 hlast
          rw [hlast] at hform
          rw [List.foldl_concat]
          exact endsAsSource_entryPath hform
      next => cases hq

/-- Every path that a search comes to by a last step for sources ends as those of sources do. -/
theorem endsAsSource_of_paths {step : Step} (hstep : step.IsLast) (way : List Step)
    (h : q ∈ paths t (way ++ [step]) p) : EndsAsSource q := by
  induction way generalizing p with
  | nil => exact endsAsSource_of_last hstep h
  | cons first way ih =>
    rw [List.cons_append] at h
    cases first with
    | literal piece =>
      rw [paths] at h
      split at h <;>
      · split at h
        · exact ih h
        · cases h
    | entries tokens =>
      rw [paths] at h
      split at h
      next => cases h
      next =>
        obtain h | h := List.mem_append.1 h
        · obtain ⟨name, -, hq⟩ := List.mem_flatMap.1 h
          exact ih hq
        · obtain ⟨name, -, hq⟩ := List.mem_flatMap.1 h
          exact ih hq
    | below tokens =>
      rw [paths] at h
      split at h
      next => cases h
      next =>
        obtain ⟨names, -, hq⟩ := List.mem_flatMap.1 h
        split at hq
        next => exact ih hq
        next => cases hq

theorem steps_sources (deep : Bool) (parts : List (List Token)) :
    ∃ way step, steps deep (parts ++ [sourceTokens]) = way ++ [step] ∧ step.IsLast := by
  induction parts generalizing deep with
  | nil =>
    cases deep with
    | false => exact ⟨[], .entries sourceTokens, rfl, .inl rfl⟩
    | true => exact ⟨[], .below sourceTokens, rfl, .inr rfl⟩
  | cons tokens parts ih =>
    rw [List.cons_append, steps]
    split
    · exact ih true
    · obtain ⟨way, step, hsteps, hstep⟩ := ih false
      rw [hsteps]
      exact ⟨_ :: way, step, rfl, hstep⟩

theorem endsAsSource_of_search {input : Path} {found : List Path} (hinput : input.text ≠ "")
    (h : search t (input.join "*.vm") = .ok found) : ∀ q ∈ found, EndsAsSource q := by
  have hname : '/' ∉ ['*', '.', 'v', 'm'] := by decide
  obtain ⟨whole, hwhole, -⟩ := bind_eq_ok h
  obtain ⟨parts, hparts, rfl⟩ := map_eq_ok ((search_join hinput hname hwhole).symm.trans h)
  rw [List.mapM_append] at hparts
  obtain ⟨above, -, hparts⟩ := bind_eq_ok hparts
  obtain ⟨last, hlast, hparts⟩ := bind_eq_ok hparts
  cases hlast
  cases hparts
  obtain ⟨way, step, hsteps, hstep⟩ := steps_sources false above
  intro q hq
  change q ∈ paths t (steps false (above ++ [sourceTokens])) _ at hq
  rw [hsteps] at hq
  exact endsAsSource_of_paths hstep way hq

end Files

namespace Tool

variable {t : Tree} {input : Path} {sources : List Path}

theorem collectSources_cases (h : collectSources t input = .ok sources) :
    (∃ found, t.isDirectory input ∧ search t (input.join "*.vm") = .ok found ∧ sources.Perm found) ∨
      input.extension? = some "vm" ∧ sources = [input] := by
  unfold collectSources at h
  split at h
  next hdirectory =>
    split at h
    next => cases h
    next found hsearch =>
      split at h
      next => cases h
      next =>
        cases h
        exact .inl ⟨found, hdirectory, hsearch, List.mergeSort_perm found Path.le⟩
  next =>
    split at h
    next hextension =>
      cases h
      exact .inr ⟨hextension, rfl⟩
    next => cases h

theorem exists_stem (h : collectSources t input = .ok sources) :
    ∀ source ∈ sources, ∃ stem, source.SourceOf stem := by
  obtain ⟨found, hdirectory, hsearch, hperm⟩ | ⟨hextension, rfl⟩ := collectSources_cases h
  · obtain ⟨place, hplace⟩ := Option.isSome_iff_exists.1 hdirectory
    have hinput := (Tree.directory?_eq_some_iff.1 hplace).1.ne_empty
    have hends := endsAsSource_of_search hinput hsearch
    exact fun source hsource => Path.exists_sourceOf (hends source (hperm.mem_iff.1 hsource))
  · exact List.forall_mem_singleton.2 (Path.sourceOf_of_extension hextension)

theorem fileName?_entryPath {d : Path} {file : String} (hslash : '/' ∉ file.toList)
    (hform : ∃ stem, file = stem ++ ".vm") : (entryPath d file).fileName? = some file := by
  obtain ⟨stem, rfl⟩ := hform
  obtain ⟨before, hbefore, hwhole⟩ := text_entryPath d (stem ++ ".vm")
  have hstem : '/' ∉ stem.toList := by
    rw [String.toList_append] at hslash
    exact fun hmem => hslash (List.mem_append_left _ hmem)
  rw [String.toList_append] at hbefore
  exact Path.SourceOf.fileName? ⟨hstem, before, Path.splitName?_source hbefore hwhole hstem⟩

/-- The sources of a directory without wildcards in its path have different names. -/
theorem fileNames_nodup (ht : t.Proper) (hplain : Plain input.text.toList)
    (h : collectSources t input = .ok sources) : (sources.map Path.fileName?).Nodup := by
  obtain ⟨found, hdirectory, hsearch, hperm⟩ | ⟨-, rfl⟩ := collectSources_cases h
  · obtain ⟨place, hplace⟩ := Option.isSome_iff_exists.1 hdirectory
    obtain ⟨hleads, hsize⟩ := Tree.directory?_eq_some_iff.1 hplace
    rw [(hperm.map _).nodup_iff]
    by_cases hslips : input.Slips
    · cases hsearch.symm.trans (search_of_slips hleads.ne_empty hplain hslips)
      exact List.nodup_nil
    · obtain ⟨d, -, -, hfound⟩ := search_of_plain hleads hsize hplain hslips
      cases hsearch.symm.trans hfound
      have hnames : ((sourceNames t place).map (entryPath d)).map Path.fileName? =
          (sourceNames t place).map some := by
        rw [List.map_map]
        refine List.map_congr_left fun file hfile => ?_
        have hslash := ht.slash_of_mem_children (List.mem_filter.1 hfile).1
        exact fileName?_entryPath hslash (mem_sourceNames.1 hfile).2
      rw [hnames]
      exact List.Nodup.map (Option.some_injective _) ((ht.sourceNames_ascending place).imp ne_of_lt)
  · exact List.nodup_singleton _

end Tool

end HackStack
