import HackStack.Proofs.Searching
import HackStack.Tool.Sources

set_option autoImplicit false

namespace HackStack

open Files

namespace Files.Path

/-- A path from the current directory with an empty piece behind nothing but `.`, as in `.//src`. -/
def Slips (p : Path) : Prop := p.isAbsolute = false ∧ Lost p.way

end Files.Path

namespace Tool

variable {t : Tree} {input : Path} {place : Place}

/-- The source files in a directory, by name, are the sources that are collected from it; if there are none
that is the failure. -/
def OwnSources (t : Tree) (input : Path) (place : Place) : Prop :=
  ∃ own : List String, own.Pairwise (· < ·) ∧
    (∀ name, name ∈ own ↔ (t.node? (place ++ [name])).isSome ∧ ∃ stem, name = stem ++ ".vm") ∧
    (own = [] → collectSources t input = .error (.noSources input)) ∧
    (own ≠ [] → ∃ sources, collectSources t input = .ok sources ∧
      sources.Pairwise (fun p q => p.le q) ∧
      sources.map Path.bare = own.map fun name => input.bare ++ [.name name])

section Plain

theorem leads_base (h : t.Leads input place) : t.Leads input.base (t.start input) := by
  have hstart := Tree.directory_of_walk h.walk h.directory
  unfold Tree.start at hstart ⊢
  unfold Path.base
  cases habsolute : input.isAbsolute with
  | true => exact ⟨by decide, rfl, rfl⟩
  | false =>
    rw [habsolute] at hstart
    exact ⟨by decide, Tree.walk_here hstart, hstart⟩

theorem search_of_plain (h : t.Leads input place) (hsize : input.text.utf8ByteSize ≤ Tree.maxPath)
    (hplain : Plain input.text.toList) (hslips : ¬ input.Slips) :
    ∃ d : Path, d.Reached ∧ d.bare = input.bare ∧
      search t (input.join "*.vm") = .ok ((sourceNames t place).map (entryPath d)) := by
  have hlost (hdot : input.base.text = ".") : ¬ Lost input.legs := by
    unfold Path.base at hdot
    cases habsolute : input.isAbsolute with
    | true =>
      rw [habsolute] at hdot
      exact absurd hdot (by decide)
    | false =>
      rw [Path.legs, habsolute]
      exact fun hlost => hslips ⟨habsolute, hlost⟩
  have hwidth := input.width_legs
  obtain ⟨d, hleads, hd, hsize, hbare, hpaths⟩ := paths_literals (leads_base h) input.base_reached
    (fun piece hpiece => Path.slash_of_mem_legs hpiece) hlost (input.names_legs ▸ h.walk) h.directory
    (by omega)
  refine ⟨d, hd, hbare.trans input.bare_legs.symm, ?_⟩
  rw [search_plain h.ne_empty hplain, hpaths, paths_sources hleads hsize]

theorem search_of_slips (h : input.text ≠ "") (hplain : Plain input.text.toList) (hslips : input.Slips) :
    search t (input.join "*.vm") = .ok [] := by
  obtain ⟨habsolute, hlost⟩ := hslips
  rw [search_plain h hplain, Path.base, Path.legs, habsolute]
  exact congrArg Except.ok (paths_lost hlost _)

theorem component_source {name : String} (h : ∃ stem, name = stem ++ ".vm") (index : Nat) :
    Path.component name.toList index = some (.name name) := by
  obtain ⟨stem, rfl⟩ := h
  have hmem : 'm' ∈ (stem ++ ".vm").toList := by simp
  unfold Path.component
  rw [if_neg (List.ne_nil_of_mem hmem), if_neg, if_neg, String.ofList_toList] <;>
  · intro heq
    rw [heq] at hmem
    exact absurd hmem (by decide)

theorem components_source {d : Path} (h : d.Reached) : ∃ above, ∀ name : String, '/' ∉ name.toList →
    (∃ stem, name = stem ++ ".vm") → (entryPath d name).components = above ++ [.name name] := by
  by_cases hdot : d.text = "."
  · obtain rfl : d = ⟨"."⟩ := Path.eq_here hdot
    refine ⟨[], fun name hslash hform => ?_⟩
    have hne : name.toList ≠ [] := by
      obtain ⟨stem, rfl⟩ := hform
      simp
    rw [Path.entryPath_here, ← String.ofList_toList (s := name), Path.components_name hne hslash,
      component_source hform]
    simp
  · refine ⟨d.components, fun name hslash hform => ?_⟩
    rw [h.entryPath_join hdot, ← String.ofList_toList (s := name), Path.components_join h.ne_empty hslash,
      component_source hform]
    simp

theorem sources_ordered {d : Path} {own : List String} (h : d.Reached) (hown : own.Pairwise (· < ·))
    (hslash : ∀ name ∈ own, '/' ∉ name.toList) (hform : ∀ name ∈ own, ∃ stem, name = stem ++ ".vm") :
    (own.map (entryPath d)).Pairwise fun p q => p.le q := by
  obtain ⟨above, habove⟩ := components_source h
  refine List.pairwise_map.2 (hown.imp_of_mem fun ha hb hlt => ?_)
  rw [Path.le, habove _ (hslash _ ha) (hform _ ha), habove _ (hslash _ hb) (hform _ hb),
    Path.orderComponents_append]
  exact Path.isLE_orderComponents_name (le_of_lt hlt)

theorem bare_source {d : Path} {name : String} (h : d.Reached) (hslash : '/' ∉ name.toList)
    (hform : ∃ stem, name = stem ++ ".vm") : (entryPath d name).bare = d.bare ++ [.name name] := by
  have hne (_ : d.text = ".") : name.toList ≠ [] := by
    obtain ⟨stem, rfl⟩ := hform
    simp
  have hbare := h.bare_entryPath hslash hne
  rwa [String.ofList_toList, component_source hform] at hbare

/-- A directory without wildcards in its path yields its own sources, unless the path slips and there are
some. -/
theorem ownSources_iff (ht : t.Proper) (h : t.directory? input = some place)
    (hplain : Plain input.text.toList) :
    OwnSources t input place ↔ (input.Slips → sourceNames t place = []) := by
  obtain ⟨hleads, hsize⟩ := Tree.directory?_eq_some_iff.1 h
  have hdirectory : t.isDirectory input := (hleads.contains hsize).2
  constructor
  · rintro ⟨own, -, hmem, -, hfound⟩ hslips
    by_contra hne
    have hown : own ≠ [] := by
      obtain ⟨name, hname⟩ := List.exists_mem_of_ne_nil _ hne
      exact List.ne_nil_of_mem ((hmem name).2 (mem_sourceNames.1 hname))
    obtain ⟨sources, hsources, -⟩ := hfound hown
    rw [collectSources, if_pos hdirectory, search_of_slips hleads.ne_empty hplain hslips] at hsources
    cases hsources
  · intro hslips
    have hform : ∀ name ∈ sourceNames t place, ∃ stem, name = stem ++ ".vm" := fun name hname =>
      (mem_sourceNames.1 hname).2
    have hslash : ∀ name ∈ sourceNames t place, '/' ∉ name.toList := fun name hname =>
      ht.slash_of_mem_children (List.mem_filter.1 hname).1
    refine ⟨sourceNames t place, ht.sourceNames_ascending place, fun name => mem_sourceNames, ?_, ?_⟩
    · intro hnone
      have hsearch : search t (input.join "*.vm") = .ok [] := by
        by_cases hslip : input.Slips
        · exact search_of_slips hleads.ne_empty hplain hslip
        · obtain ⟨d, -, -, hsearch⟩ := search_of_plain hleads hsize hplain hslip
          rw [hsearch, hnone]
          rfl
      rw [collectSources, if_pos hdirectory, hsearch]
      rfl
    · intro hsome
      obtain ⟨d, hd, hbare, hsearch⟩ := search_of_plain hleads hsize hplain (mt hslips hsome)
      have hordered := sources_ordered hd (ht.sourceNames_ascending place) hslash hform
      refine ⟨(sourceNames t place).map (entryPath d), ?_, hordered, ?_⟩
      · rw [collectSources, if_pos hdirectory, hsearch]
        simp [hsome, List.mergeSort_of_pairwise hordered]
      · rw [List.map_map, ← hbare]
        exact List.map_congr_left fun name hname => bare_source hd (hslash name hname) (hform name hname)

end Plain

section Wildcards

structure EntryName (name : String) : Prop where
  proper : name ∉ ["", ".", ".."]
  slash : '/' ∉ name.toList
  size : name.utf8ByteSize ≤ Tree.maxName

namespace EntryName

variable {name : String}

theorem ne_nil (h : EntryName name) : name.toList ≠ [] := fun hnil =>
  h.proper (String.toList_eq_nil_iff.1 hnil ▸ List.mem_cons_self)

theorem ne_dots (h : EntryName name) : name.toList ≠ ['.'] ∧ name.toList ≠ ['.', '.'] := by
  have hproper := h.proper
  simp only [List.mem_cons, List.not_mem_nil, or_false, not_or] at hproper
  exact ⟨fun heq => hproper.2.1 (String.toList_injective heq),
    fun heq => hproper.2.2 (String.toList_injective heq)⟩

theorem component (h : EntryName name) : Path.component name.toList 1 = some (.name name) := by
  rw [Path.component, if_neg h.ne_nil, if_neg h.ne_dots.1, if_neg h.ne_dots.2, String.ofList_toList]

theorem bare (h : EntryName name) : Path.bare ⟨name⟩ = [.name name] := by
  have hbare := Path.bare_name h.ne_nil h.slash
  rwa [String.ofList_toList, h.component] at hbare

theorem legs (h : EntryName name) : Path.legs ⟨name⟩ = [name.toList] := by
  have habsolute := Path.isAbsolute_name h.ne_nil h.slash
  rw [String.ofList_toList] at habsolute
  have hstretch : Path.stretch ⟨name⟩ = name.toList :=
    if_neg fun hlast => h.slash (List.mem_of_getLast? hlast)
  rw [Path.legs, habsolute, Path.way, hstretch, Text.splitAt_of_not_mem h.slash]
  rfl

theorem not_slips (h : EntryName name) : ¬ Path.Slips ⟨name⟩ := by
  rintro ⟨habsolute, count, rest, hlost⟩
  have hlegs := h.legs
  rw [Path.legs, habsolute, if_neg Bool.false_ne_true, hlost] at hlegs
  cases count with
  | zero => exact h.ne_nil (List.cons.inj hlegs).1.symm
  | succ count => simp [List.replicate_succ] at hlegs

theorem reached (h : EntryName name) : Path.Reached ⟨name⟩ := by
  refine .inr ⟨mt String.toList_eq_nil_iff.2 h.ne_nil, ?_⟩
  rw [h.bare]
  exact List.cons_ne_nil _ _

end EntryName

def neighbours (names : List String) : Tree :=
  ⟨[], names.flatMap fun name => [([name], .directory), ([name, "a.vm"], .file ByteArray.empty)]⟩

variable {name other : String} {names : List String}

theorem places_neighbours :
    (neighbours names).nodes.map Prod.fst = names.flatMap fun name => [[name], [name, "a.vm"]] := by
  simp [neighbours, List.map_flatMap]

theorem neighbours_proper (hnodup : names.Nodup) (hnames : ∀ name ∈ names, '/' ∉ name.toList) :
    (neighbours names).Proper := by
  constructor
  · rw [places_neighbours, List.nodup_flatMap]
    refine ⟨fun name _ => by simp, hnodup.imp fun hne => ?_⟩
    simp [Function.onFun, hne.symm]
  · rw [places_neighbours]
    intro place hplace
    obtain ⟨name, hname, hplace⟩ := List.mem_flatMap.1 hplace
    have hslash := hnames name hname
    have hsource : '/' ∉ "a.vm".toList := by decide
    simp only [List.mem_cons, List.not_mem_nil, or_false] at hplace
    rcases hplace with rfl | rfl
    · exact List.forall_mem_singleton.2 hslash
    · exact List.forall_mem_cons.2 ⟨hslash, List.forall_mem_singleton.2 hsource⟩
  · exact List.forall_mem_nil _

theorem node?_neighbours (h : name ∈ names) : (neighbours names).node? [name] = some .directory ∧
    ((neighbours names).node? [name, "a.vm"]).isSome := by
  induction names with
  | nil => cases h
  | cons first names ih =>
    have hnodes : (neighbours (first :: names)).nodes =
        ([first], .directory) :: ([first, "a.vm"], .file ByteArray.empty) :: (neighbours names).nodes := rfl
    by_cases hfirst : name = first
    · simp [Tree.node?, hnodes, List.lookup_cons, hfirst]
    · have hbeq : (name == first) = false := beq_false_of_ne hfirst
      simpa [Tree.node?, hnodes, List.lookup_cons, hbeq] using ih ((List.mem_cons.1 h).resolve_left hfirst)

theorem mem_of_mem_children (h : name ∈ (neighbours names).children []) : name ∈ names := by
  rw [(Tree.children_perm _ _).mem_iff, places_neighbours, List.mem_filterMap] at h
  obtain ⟨below, hbelow, hname⟩ := h
  rw [Tree.nameIn_eq_some_iff] at hname
  simpa [hname] using hbelow

theorem leads_neighbours (hname : EntryName name) (h : name ∈ names) :
    (neighbours names).Leads ⟨name⟩ [name] := by
  have hnames := Path.names_name hname.ne_nil hname.slash
  have habsolute := Path.isAbsolute_name hname.ne_nil hname.slash
  rw [String.ofList_toList] at hnames habsolute
  have henter : Tree.enter [] name.toList = [name] := by
    rw [Tree.enter, if_neg hname.ne_dots.1, if_neg hname.ne_dots.2, String.ofList_toList, List.nil_append]
  refine ⟨hname.reached.ne_empty, ?_, (node?_neighbours h).1⟩
  rw [hnames, Tree.start, habsolute, Tree.walk_cons, String.ofList_toList, Tree.requireShort_eq_ok]
  exact ⟨rfl, hname.size, congrArg Except.ok henter⟩

theorem search_name {found : List Path} (hname : EntryName name)
    (h : search t (Path.join ⟨name⟩ "*.vm") = .ok found) : ∃ tokens, parsePattern name.toList = .ok tokens ∧
      ∀ u, search u (Path.join ⟨name⟩ "*.vm") = .ok (paths u (steps false [tokens, sourceTokens]) ⟨"."⟩) := by
  have hsources : '/' ∉ ['*', '.', 'v', 'm'] := by decide
  have habsolute := Path.isAbsolute_name hname.ne_nil hname.slash
  rw [String.ofList_toList] at habsolute
  obtain ⟨whole, hwhole, -⟩ := bind_eq_ok h
  have hsearch (u : Tree) := search_join (t := u) hname.reached.ne_empty hsources hwhole
  rw [hname.legs, Path.base, habsolute] at hsearch
  cases hparse : parsePattern name.toList with
  | error cause =>
    have herror := (hsearch t).symm.trans h
    simp [List.mapM_cons, hparse, bind, Except.bind] at herror
  | ok tokens =>
    refine ⟨tokens, rfl, fun u => (hsearch u).trans ?_⟩
    rw [List.cons_append, List.mapM_cons, hparse]
    rfl

theorem found_of_ownSources (h : OwnSources t input place) (hplace : t.directory? input = some place)
    (hsource : (t.node? (place ++ ["a.vm"])).isSome) :
    ∃ found, search t (input.join "*.vm") = .ok found ∧ (∃ q ∈ found, q.bare = input.bare ++ [.name "a.vm"]) ∧
      ∀ q ∈ found, ∃ file, q.bare = input.bare ++ [.name file] := by
  obtain ⟨own, -, hmem, -, hfound⟩ := h
  have hown : "a.vm" ∈ own := (hmem _).2 ⟨hsource, "a", rfl⟩
  have hdirectory : t.isDirectory input := Option.isSome_iff_exists.2 ⟨place, hplace⟩
  obtain ⟨sources, hsources, -, hbare⟩ := hfound (List.ne_nil_of_mem hown)
  rw [collectSources, if_pos hdirectory] at hsources
  split at hsources
  next => cases hsources
  next found hsearch =>
    split at hsources
    next => cases hsources
    next =>
      cases hsources
      have hperm := List.mergeSort_perm found Path.le
      refine ⟨found, hsearch, ?_, fun q hq => ?_⟩
      · have hsource : input.bare ++ [.name "a.vm"] ∈ (found.mergeSort Path.le).map Path.bare := by
          rw [hbare]
          exact List.mem_map_of_mem hown
        obtain ⟨q, hq, hqbare⟩ := List.mem_map.1 hsource
        exact ⟨q, hperm.mem_iff.1 hq, hqbare⟩
      · have hq' := List.mem_map_of_mem (f := Path.bare) (hperm.mem_iff.2 hq)
        rw [hbare] at hq'
        obtain ⟨file, -, hfile⟩ := List.mem_map.1 hq'
        exact ⟨file, hfile.symm⟩

theorem directory?_here (names : List String) : (neighbours names).directory? ⟨"."⟩ = some [] := rfl

/-- A directory that has the form of a pattern is entered. -/
theorem entered_of_matchesName {tokens : List Token} (hname : EntryName name) (h : name ∈ names)
    (hform : matchesName tokens name.toList) :
    entryPath ⟨name⟩ "a.vm" ∈ paths (neighbours names) [.entries tokens, .entries sourceTokens] ⟨"."⟩ := by
  have hchild : name ∈ (neighbours names).children [] := by
    rw [Tree.mem_children, List.nil_append, (node?_neighbours h).1]
    rfl
  have hsource : "a.vm" ∈ sourceNames (neighbours names) [name] :=
    mem_sourceNames.2 ⟨(node?_neighbours h).2, "a", rfl⟩
  have hsize : name.utf8ByteSize ≤ Tree.maxPath := Nat.le_trans hname.size (by decide)
  rw [paths_entries (directory?_here names)]
  refine List.mem_append_right _ (List.mem_flatMap.2 ⟨name, List.mem_filter.2 ⟨hchild, hform⟩, ?_⟩)
  rw [Path.entryPath_here, paths_sources (leads_neighbours hname h) hsize]
  exact List.mem_map_of_mem hsource

/-- Only a directory that has the form of the pattern yields its source under its own name. -/
theorem matchesName_of_found {tokens : List Token} {q : Path}
    (h : q ∈ paths (neighbours [name]) [.entries tokens, .entries sourceTokens] ⟨"."⟩)
    (hq : q.bare = [.name name, .name "a.vm"]) (hslash : '/' ∉ name.toList) :
    matchesName tokens name.toList := by
  have hproper : (neighbours [name]).Proper :=
    neighbours_proper (List.nodup_singleton _) (List.forall_mem_singleton.2 hslash)
  rw [paths_entries (directory?_here [name])] at h
  obtain hdots | hentries := List.mem_append.1 h
  · -- The entries `..` and `.` lead to paths that do not start with the name.
    obtain ⟨dots, hentry, hq'⟩ := List.mem_flatMap.1 hdots
    obtain ⟨place, file, hfile, rfl⟩ := mem_paths_sources hq'
    have hform := (mem_sourceNames.1 hfile).2
    have hslash := hproper.slash_of_mem_children (List.mem_filter.1 hfile).1
    have hdots : dots = ".." ∨ dots = "." := by
      unfold dotEntries at hentry
      split at hentry
      · simpa using (List.mem_filter.1 hentry).1
      · cases hentry
    rcases hdots with rfl | rfl
    · have hreached : (Path.join ⟨"."⟩ "..").Reached := .inr ⟨by decide, by decide⟩
      have hbare : (Path.join ⟨"."⟩ "..").bare = [.up] := by decide
      rw [bare_source hreached hslash hform, hbare] at hq
      cases hq
    · have hhere : entryPath (Path.join ⟨"."⟩ ".") file = entryPath ⟨"."⟩ file := rfl
      rw [hhere, bare_source (.inl rfl) hslash hform, Path.bare_here] at hq
      cases hq
  · obtain ⟨entry, hentry, -⟩ := List.mem_flatMap.1 hentries
    obtain ⟨hchild, hform⟩ := List.mem_filter.1 hentry
    obtain rfl := List.mem_singleton.1 (mem_of_mem_children hchild)
    exact hform

theorem found_below :
    entryPath ⟨"b"⟩ "a.vm" ∈ paths (neighbours ["**", "b"]) [.below sourceTokens] ⟨"."⟩ := by
  have hway : ["b", "a.vm"] ∈ (neighbours ["**", "b"]).descendants [] := by
    rw [Tree.descendants, List.mem_mergeSort]
    decide
  have hform : matchesName sourceTokens "a.vm".toList := by decide
  rw [paths, directory?_here]
  refine List.mem_flatMap.2 ⟨["b", "a.vm"], hway, ?_⟩
  rw [List.getLast?_cons_cons, List.getLast?_singleton, Option.getD_some, if_pos hform, List.foldl_cons,
    Path.entryPath_here]
  exact List.mem_singleton_self _

/-- A name with a part exchanged for a letter is a name, and another one for one of two letters. -/
theorem exists_exchanged {before part after : List Char} (h : EntryName name)
    (hname : name.toList = before ++ (part ++ after)) (hpart : part ≠ []) :
    ∃ c, EntryName (String.ofList (before ++ c :: after)) ∧ String.ofList (before ++ c :: after) ≠ name := by
  have hentry : ∀ c ∈ ['a', 'b'], EntryName (String.ofList (before ++ c :: after)) := by
    intro c hc
    have hsize : c.utf8Size = 1 ∧ c ≠ '/' ∧ ∀ text ∈ ["", ".", ".."], c ∉ text.toList := by
      rw [List.mem_pair] at hc
      obtain rfl | rfl := hc <;> decide
    have hslash := h.slash
    have hbytes := h.size
    obtain ⟨d, part, rfl⟩ := List.exists_cons_of_ne_nil hpart
    have hd := d.utf8Size_pos
    rw [← String.ofList_toList (s := name), String.utf8ByteSize_ofList] at hbytes
    simp only [hname, List.mem_append, List.mem_cons, not_or, String.utf8Len_append, String.utf8Len_cons]
      at hslash hbytes
    refine ⟨fun hmem => hsize.2.2 _ hmem (by simp), ?_, ?_⟩
    · simp [hslash, hsize.2.1.symm]
    · simp only [String.utf8ByteSize_ofList, String.utf8Len_append, String.utf8Len_cons, hsize.1]
      omega
  by_cases ha : String.ofList (before ++ 'a' :: after) = name
  · refine ⟨'b', hentry 'b' (by decide), ?_⟩
    rw [← ha]
    simp
  · exact ⟨'a', hentry 'a' (by decide), ha⟩

/-- A name with a wildcard is, beside a suitable neighbour, a directory that does not yield its own
sources. -/
theorem exists_not_ownSources (hname : EntryName name) (hplain : ¬ Plain name.toList) :
    ∃ t place, t.Proper ∧ t.directory? ⟨name⟩ = some place ∧ ¬ OwnSources t ⟨name⟩ place := by
  by_contra hall
  have hfound {names : List String} (hnodup : names.Nodup) (hslash : ∀ name ∈ names, '/' ∉ name.toList)
      (h : name ∈ names) := by
    have hdirectory : (neighbours names).directory? ⟨name⟩ = some [name] :=
      Tree.directory?_eq_some_iff.2 ⟨leads_neighbours hname h, Nat.le_trans hname.size (by decide)⟩
    have hown : OwnSources (neighbours names) ⟨name⟩ [name] := by
      by_contra hnot
      exact hall ⟨_, _, neighbours_proper hnodup hslash, hdirectory, hnot⟩
    exact found_of_ownSources hown hdirectory (node?_neighbours h).2
  simp only [hname.bare] at hfound
  obtain ⟨found, hsearch, ⟨q, hq, hqbare⟩, -⟩ := hfound (List.nodup_singleton name)
    (List.forall_mem_singleton.2 hname.slash) List.mem_cons_self
  obtain ⟨tokens, hparse, hpaths⟩ := search_name hname hsearch
  obtain rfl := Except.ok.inj (hsearch.symm.trans (hpaths _))
  have hstray {other : String} (hother : EntryName other) (hne : other ≠ name) :
      entryPath ⟨other⟩ "a.vm" ∉
        paths (neighbours [name, other]) (steps false [tokens, sourceTokens]) ⟨"."⟩ := by
    intro hmem
    have hnodup : [name, other].Nodup := by simpa using hne.symm
    obtain ⟨found, hsearch, -, hbare⟩ :=
      hfound hnodup (by simp [hname.slash, hother.slash]) List.mem_cons_self
    obtain rfl := Except.ok.inj (hsearch.symm.trans (hpaths _))
    obtain ⟨file, hfile⟩ := hbare _ hmem
    have hsource : (entryPath ⟨other⟩ "a.vm").bare = Path.bare ⟨other⟩ ++ [.name "a.vm"] :=
      bare_source hother.reached (by decide) ⟨"a", rfl⟩
    rw [hsource, hother.bare] at hfile
    exact hne (by simpa using (List.cons.inj hfile).1)
  by_cases hstars : name.toList = ['*', '*']
  · obtain rfl : name = "**" := String.toList_injective hstars
    cases hparse
    exact hstray ⟨by decide, by decide, by decide⟩ (by decide) found_below
  · obtain ⟨hflat, hwild, hexchange⟩ := exchange_of_parsePattern hparse hname.slash hplain hstars
    have hsteps : steps false [tokens, sourceTokens] = [.entries tokens, .entries sourceTokens] := by
      have hcontains : tokens.contains .anyDirectories = false := by simpa using hflat
      rw [steps, hcontains, hwild]
      rfl
    rw [hsteps] at hq hstray
    obtain ⟨before, part, after, hcut, hpart, hform⟩ := hexchange (matchesName_of_found hq hqbare hname.slash)
    obtain ⟨c, hother, hne⟩ := exists_exchanged hname hcut hpart
    exact hstray hother hne (entered_of_matchesName hother (by simp) (by simpa using hform c))

end Wildcards

/-- Collecting the sources of a directory: where its path has no wildcards they are its own sources, by name,
unless the path slips and there are some. The name of a directory yields its own sources in every tree exactly
if it has no wildcards. -/
theorem directory_sources_iff (input : Path) :
    (Plain input.text.toList → ∀ t place, t.Proper → t.directory? input = some place →
      (OwnSources t input place ↔
        (input.Slips → ∀ name, (t.node? (place ++ [name])).isSome → ∀ stem, name ≠ stem ++ ".vm"))) ∧
    (EntryName input.text →
      ((∀ t place, t.Proper → t.directory? input = some place → OwnSources t input place) ↔
        Plain input.text.toList)) := by
  refine ⟨fun hplain t place ht hplace => ?_,
    fun hname => ⟨fun hall => ?_, fun hplain t place ht hplace => ?_⟩⟩
  · rw [ownSources_iff ht hplace hplain]
    simp only [List.eq_nil_iff_forall_not_mem, mem_sourceNames, not_and, not_exists, ne_eq]
  · by_contra hplain
    obtain ⟨t, place, ht, hplace, hnot⟩ := exists_not_ownSources hname hplain
    exact hnot (hall t place ht hplace)
  · exact (ownSources_iff ht hplace hplain).2 fun hslips => absurd hslips hname.not_slips

def sourceTree : Tree := (Tree.empty []).add ⟨"src/a.vm"⟩ (.file ByteArray.empty)

/-- The directory `src` yields its own sources under its name and none as `.//src`, and `[ab]` is no name
under which a directory always yields its own. -/
theorem directory_sources_bracketed :
    OwnSources sourceTree ⟨"src"⟩ ["src"] ∧ ¬ OwnSources sourceTree ⟨".//src"⟩ ["src"] ∧
      ¬ ∀ t place, t.Proper → t.directory? ⟨"[ab]"⟩ = some place → OwnSources t ⟨"[ab]"⟩ place := by
  have hplain : Plain "src".toList ∧ Plain ".//src".toList ∧ ¬ Plain "[ab]".toList := by
    simp [Plain, IsWildcard]
  have ht : sourceTree.Proper := (Tree.Proper.empty (List.forall_mem_nil _)).add _ _
  have hsource : (sourceTree.node? (["src"] ++ ["a.vm"])).isSome := by decide
  have hslips : Path.Slips ⟨".//src"⟩ := ⟨by decide, 1, [['s', 'r', 'c']], by decide⟩
  refine ⟨?_, fun hown => ?_, fun hall => ?_⟩
  · exact ((directory_sources_iff ⟨"src"⟩).2 ⟨by decide, by decide, by decide⟩).2 hplain.1 _ _ ht (by decide)
  · have hnone := ((directory_sources_iff ⟨".//src"⟩).1 hplain.2.1 _ _ ht (by decide)).1 hown hslips
    exact hnone _ hsource "a" rfl
  · exact hplain.2.2 (((directory_sources_iff ⟨"[ab]"⟩).2 ⟨by decide, by decide, by decide⟩).1 hall)

end Tool

end HackStack
