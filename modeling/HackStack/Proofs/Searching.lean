import HackStack.Proofs.Directories
import HackStack.Proofs.Patterns

set_option autoImplicit false

namespace HackStack.Files

open Text

namespace Path

variable {p : Path}

section Width

/-- The bytes of a path with a slash behind it. The current directory is not written before its entries. -/
def width (p : Path) : Nat :=
  if p.text = "." then 0 else if p.text = "/" then 1 else p.text.utf8ByteSize + 1

theorem width_le (p : Path) : p.width ≤ p.text.utf8ByteSize + 1 := by
  unfold width
  split_ifs <;> omega

theorem size_of_width (h : p.width ≤ Tree.maxPath + 1) : p.text.utf8ByteSize ≤ Tree.maxPath := by
  unfold width at h
  split_ifs at h with hdot hslash
  · rw [hdot]
    decide
  · rw [hslash]
    decide
  · omega

theorem size_join (hdot : p.text ≠ ".") (name : String) :
    (p.join name).text.utf8ByteSize ≤ p.width + name.utf8ByteSize := by
  rw [width, if_neg hdot]
  unfold join
  split
  next => simp
  next hlast =>
    rw [String.utf8ByteSize_append]
    split_ifs with hslash
    · rw [hslash]
      exact Nat.le_refl _
    · omega
  next c hc hlast =>
    rw [String.utf8ByteSize_append, String.utf8ByteSize_append, if_neg]
    · exact Nat.le_refl _
    · intro hslash
      rw [hslash] at hlast
      exact hc (Option.some.inj hlast).symm

theorem Reached.width_entryPath (h : p.Reached) (name : String) :
    (entryPath p name).width ≤ p.width + (name.utf8ByteSize + 1) := by
  have hle := width_le (entryPath p name)
  by_cases hdot : p.text = "."
  · obtain rfl : p = ⟨"."⟩ := Path.eq_here hdot
    rw [entryPath_here] at hle ⊢
    exact Nat.le_trans hle (Nat.le_add_left _ _)
  · rw [h.entryPath_join hdot] at hle ⊢
    have hsize := size_join hdot name
    omega

def weight (pieces : List (List Char)) : Nat :=
  (pieces.map fun piece => (String.ofList piece).utf8ByteSize + 1).sum

theorem weight_splitAt (text : List Char) :
    weight (splitAt '/' text) = (String.ofList text).utf8ByteSize + 1 := by
  induction text with
  | nil => rfl
  | cons c text ih =>
    simp only [weight, splitAt, pieces, List.foldr_cons, List.map_cons, List.sum_cons,
      String.utf8ByteSize_ofList, String.utf8Len_cons] at ih ⊢
    split
    next hc =>
      have hslash : ('/' : Char).utf8Size = 1 := by decide
      simp only [hc, hslash, List.map_cons, List.sum_cons, String.utf8Len_nil]
      omega
    next =>
      simp only [String.utf8Len_cons]
      omega

end Width

def base (p : Path) : Path := if p.isAbsolute then ⟨"/"⟩ else ⟨"."⟩

def legs (p : Path) : List (List Char) := if p.isAbsolute then p.way.tail else p.way

theorem way_eq (p : Path) : p.way = (if p.isAbsolute then [[]] else []) ++ p.legs := by
  rw [legs]
  split
  next habsolute =>
    have hhead : p.text.toList.head? = some '/' := by simpa [isAbsolute] using habsolute
    obtain ⟨text, htext⟩ := List.head?_eq_some_iff.1 hhead
    have hstretch : p.stretch = [] ∨ ∃ rest, p.stretch = '/' :: rest := by
      obtain heq | heq := text_stretch p
      · exact .inr ⟨text, heq.symm.trans htext⟩
      · cases hcut : p.stretch with
        | nil => exact .inl rfl
        | cons c rest =>
          rw [htext, hcut] at heq
          obtain ⟨rfl, -⟩ := List.cons.inj heq
          exact .inr ⟨rest, rfl⟩
    obtain hstretch | ⟨rest, hstretch⟩ := hstretch
    · rw [way, hstretch]
      rfl
    · rw [way, hstretch]
      exact splitAt_append '/' [] rest
  next => rfl

theorem slash_of_mem_legs {piece : List Char} (h : piece ∈ p.legs) : '/' ∉ piece := by
  unfold legs at h
  split at h
  · exact not_mem_of_mem_splitAt (List.mem_of_mem_tail h)
  · exact not_mem_of_mem_splitAt h

theorem mem_of_mem_legs {piece : List Char} {c : Char} (h : piece ∈ p.legs) (hc : c ∈ piece) :
    c ∈ p.text.toList := by
  have hway : piece ∈ p.way := by
    unfold legs at h
    split at h
    · exact List.mem_of_mem_tail h
    · exact h
  have hcut : piece ∈ splitAt '/' p.text.toList := by
    obtain hcut | hcut := splitAt_way p
    · rwa [hcut]
    · rw [hcut]
      exact List.mem_append_left _ hway
  exact (sublist_of_mem_splitAt hcut).subset hc

theorem names_legs (p : Path) : p.names = p.legs.filter fun piece => !piece.isEmpty := by
  rw [names_way, way_eq]
  cases p.isAbsolute <;> rfl

theorem bare_legs (p : Path) :
    p.bare = p.base.bare ++ p.legs.filterMap fun piece => component piece 1 := by
  rw [bare_way, way_eq, base]
  cases p.isAbsolute <;> rfl

theorem base_reached (p : Path) : p.base.Reached := by
  unfold base
  split
  · exact .inr ⟨by decide, by decide⟩
  · exact .inl rfl

theorem width_legs (p : Path) : p.base.width + weight p.legs ≤ p.text.utf8ByteSize + 1 := by
  have htext := weight_splitAt p.text.toList
  rw [String.ofList_toList] at htext
  have hway : weight p.way ≤ p.text.utf8ByteSize + 1 := by
    rw [← htext]
    obtain hcut | hcut := splitAt_way p
    · rw [hcut]
    · rw [hcut, weight, weight, List.map_append, List.sum_append]
      exact Nat.le_add_right _ _
  refine Nat.le_trans (Nat.le_of_eq ?_) hway
  rw [way_eq p, base]
  cases p.isAbsolute
  · exact Nat.zero_add _
  · simp [weight, width]

end Path

section Following

variable {t : Tree} {p : Path} {here next place : Place} {piece : List Char}

theorem Path.Reached.entry (h : p.Reached) (hslash : '/' ∉ piece) (hpiece : p.text = "." → piece ≠ []) :
    (entryPath p (String.ofList piece)).Reached := by
  by_cases hdot : p.text = "."
  · obtain rfl : p = ⟨"."⟩ := Path.eq_here hdot
    rw [entryPath_here]
    by_cases hhere : piece = ['.']
    · rw [hhere]
      exact .inl rfl
    · refine .inr ⟨mt String.ofList_eq_empty_iff.1 (hpiece rfl), ?_⟩
      rw [bare_name (hpiece rfl) hslash, component, if_neg (hpiece rfl), if_neg hhere]
      split <;> simp
  · obtain ⟨hne, hbare⟩ := h.resolve_left hdot
    rw [h.entryPath_join hdot]
    refine .inr ⟨fun hempty => ?_, ?_⟩
    · simpa [hempty] using join_text hne (String.ofList piece)
    · rw [bare_join hne hslash]
      exact List.append_ne_nil_of_left_ne_nil hbare _

theorem Path.Reached.eq_here_of_entryPath (h : p.Reached)
    (hdot : (entryPath p (String.ofList piece)).text = ".") : p = ⟨"."⟩ ∧ piece = ['.'] := by
  by_cases hp : p.text = "."
  · obtain rfl : p = ⟨"."⟩ := Path.eq_here hp
    rw [entryPath_here] at hdot
    exact ⟨rfl, by simpa using congrArg String.toList hdot⟩
  · rw [h.entryPath_join hp] at hdot
    have hslash : '/' ∈ (p.join (String.ofList piece)).text.toList := by
      rw [join_text h.ne_empty]
      exact List.mem_append_right _ List.mem_cons_self
    rw [hdot] at hslash
    exact absurd hslash (by decide)

namespace Tree

theorem walk_filter_cons {more : List (List Char)}
    (h : t.walk here ((piece :: more).filter fun piece => !piece.isEmpty) = .ok place) :
    ∃ next, t.walk here (if piece = [] then [] else [piece]) = .ok next ∧
      t.walk next (more.filter fun piece => !piece.isEmpty) = .ok place := by
  have hcut : (piece :: more).filter (fun piece => !piece.isEmpty) =
      (if piece = [] then [] else [piece]) ++ more.filter fun piece => !piece.isEmpty := by
    cases piece <;> rfl
  rw [hcut, walk_append] at h
  exact bind_eq_ok h

theorem directory_of_walk {pieces : List (List Char)} (h : t.walk here pieces = .ok place)
    (hplace : t.node? place = some .directory) : t.node? here = some .directory := by
  cases pieces with
  | nil =>
    cases h
    exact hplace
  | cons piece more => exact ((walk_cons here).1 h).1

theorem Leads.entry (h : t.Leads p here) (hp : p.Reached) (hslash : '/' ∉ piece)
    (hpiece : p.text = "." → piece ≠ []) (hwalk : t.walk here (if piece = [] then [] else [piece]) = .ok next)
    (hnext : t.node? next = some .directory) : t.Leads (entryPath p (String.ofList piece)) next := by
  refine ⟨(hp.entry hslash hpiece).ne_empty, ?_, hnext⟩
  by_cases hdot : p.text = "."
  · obtain rfl : p = ⟨"."⟩ := Path.eq_here hdot
    obtain ⟨-, -, hhere⟩ := (walk_cons _).1 h.walk
    cases hhere
    rw [if_neg (hpiece rfl)] at hwalk
    rw [Path.entryPath_here, Path.names_name (hpiece rfl) hslash, start,
      Path.isAbsolute_name (hpiece rfl) hslash]
    exact hwalk
  · rw [hp.entryPath_join hdot, Path.names_join h.ne_empty hslash, start, Path.isAbsolute_join h.ne_empty,
      walk_append]
    have hstart := h.walk
    rw [start] at hstart
    rw [hstart]
    exact hwalk

end Tree

theorem paths_literal (h : t.Leads p here) (hnext : t.Leads (entryPath p (String.ofList piece)) next)
    (hsize : p.text.utf8ByteSize ≤ Tree.maxPath)
    (hsize' : (entryPath p (String.ofList piece)).text.utf8ByteSize ≤ Tree.maxPath) (tail : List Step) :
    paths t (.literal piece :: tail) p = paths t tail (entryPath p (String.ofList piece)) := by
  simp [paths, (h.contains hsize).2, (hnext.contains hsize').1]

/-- Pieces that lead from the current directory nowhere: an empty one behind any number of `.`. -/
def Lost (pieces : List (List Char)) : Prop :=
  ∃ count rest, pieces = List.replicate count ['.'] ++ [] :: rest

theorem paths_lost {pieces : List (List Char)} (h : Lost pieces) (tail : List Step) :
    paths t (pieces.map .literal ++ tail) ⟨"."⟩ = [] := by
  obtain ⟨count, rest, rfl⟩ := h
  induction count with
  | zero =>
    have hnone : t.contains ⟨""⟩ = false := rfl
    simp [paths, Path.entryPath_here, hnone]
  | succ count ih =>
    have hdot : entryPath ⟨"."⟩ (String.ofList ['.']) = ⟨"."⟩ := Path.entryPath_here _
    rw [List.replicate_succ, List.cons_append, List.map_cons, List.cons_append, paths, hdot, ih]
    simp only [ite_self]

/-- A search along pieces that lead to a directory comes to a path of that directory. -/
theorem paths_literals {pieces : List (List Char)} (h : t.Leads p here) (hp : p.Reached)
    (hslash : ∀ piece ∈ pieces, '/' ∉ piece) (hlost : p.text = "." → ¬ Lost pieces)
    (hwalk : t.walk here (pieces.filter fun piece => !piece.isEmpty) = .ok place)
    (hplace : t.node? place = some .directory)
    (hwidth : p.width + Path.weight pieces ≤ Tree.maxPath + 1) :
    ∃ d : Path, t.Leads d place ∧ d.Reached ∧ d.text.utf8ByteSize ≤ Tree.maxPath ∧
      d.bare = p.bare ++ (pieces.filterMap fun piece => Path.component piece 1) ∧
      ∀ tail, paths t (pieces.map .literal ++ tail) p = paths t tail d := by
  induction pieces generalizing p here with
  | nil =>
    cases hwalk
    exact ⟨p, h, hp, Path.size_of_width hwidth, (List.append_nil _).symm, fun tail => rfl⟩
  | cons piece more ih =>
    obtain ⟨hslash, hmore⟩ := List.forall_mem_cons.1 hslash
    obtain ⟨next, hstep, hrest⟩ := Tree.walk_filter_cons hwalk
    have hpiece (hdot : p.text = ".") : piece ≠ [] := by
      rintro rfl
      exact hlost hdot ⟨0, more, rfl⟩
    have hweight : Path.weight (piece :: more) =
        (String.ofList piece).utf8ByteSize + 1 + Path.weight more := by simp [Path.weight]
    have hwide := hp.width_entryPath (String.ofList piece)
    have hnext := h.entry hp hslash hpiece hstep (Tree.directory_of_walk hrest hplace)
    have hreached := hp.entry hslash hpiece
    have hlost' (hdot : (entryPath p (String.ofList piece)).text = ".") : ¬ Lost more := by
      rintro ⟨count, rest, rfl⟩
      obtain ⟨rfl, rfl⟩ := hp.eq_here_of_entryPath hdot
      exact hlost rfl ⟨count + 1, rest, rfl⟩
    obtain ⟨d, hd, hdp, hsize, hbare, hpaths⟩ := ih hnext hreached hmore hlost' hrest (by omega)
    refine ⟨d, hd, hdp, hsize, ?_, fun tail => ?_⟩
    · rw [hbare, hp.bare_entryPath hslash hpiece, List.append_assoc]
      congr 1
      rw [List.filterMap_cons]
      cases Path.component piece 1 <;> rfl
    · rw [List.map_cons, List.cons_append, paths_literal h hnext (Path.size_of_width (by omega))
        (Path.size_of_width (by omega)), hpaths]

end Following

section Sources

variable {t : Tree} {place : Place}

theorem mapM_eq_ok {α β ε : Type} {f : α → Except ε β} {g : α → β} {xs : List α}
    (h : ∀ x ∈ xs, f x = .ok (g x)) : xs.mapM f = .ok (xs.map g) := by
  induction xs with
  | nil => rfl
  | cons x xs ih =>
    obtain ⟨hx, hxs⟩ := List.forall_mem_cons.1 h
    rw [List.mapM_cons, hx, ih hxs]
    rfl

theorem literal?_chars (text : List Char) : literal? (text.map .char) = some text := by
  induction text with
  | nil => rfl
  | cons c text ih => rw [List.map_cons, literal?, ih, Option.map_some]

theorem steps_literals (pieces : List (List Char)) (more : List (List Token)) :
    steps false (pieces.map (·.map .char) ++ more) = pieces.map .literal ++ steps false more := by
  induction pieces with
  | nil => rfl
  | cons piece pieces ih => simp [steps, literal?_chars, ih]

/-- A search for names in a directory goes along the pieces of the directory's path first. -/
theorem search_join {input : Path} {name : List Char} {tokens : List Token} (h : input.text ≠ "")
    (hname : '/' ∉ name) (hwhole : parsePattern (input.join (String.ofList name)).text.toList = .ok tokens) :
    search t (input.join (String.ofList name)) =
      (fun parts => paths t (steps false parts) input.base) <$> (input.legs ++ [name]).mapM parsePattern := by
  have hsplit := Path.splitAt_join h hname
  rw [Path.way_eq] at hsplit
  have habsolute := Path.isAbsolute_join h (String.ofList name)
  rw [search, hwhole, habsolute, Path.base]
  cases hinput : input.isAbsolute with
  | false =>
    rw [hinput] at hsplit
    change _ <$> (splitAt '/' _).mapM parsePattern = _
    rw [hsplit]
    rfl
  | true =>
    have hhead : (input.join (String.ofList name)).text.toList.head? = some '/' := by
      rw [hinput] at habsolute
      simpa [Path.isAbsolute] using habsolute
    obtain ⟨rest, hrest⟩ := List.head?_eq_some_iff.1 hhead
    rw [hinput, hrest] at hsplit
    rw [hrest]
    change _ <$> (splitAt '/' rest).mapM parsePattern = _
    have hlegs : [[]] ++ splitAt '/' rest = [[]] ++ (input.legs ++ [name]) :=
      (splitAt_append '/' [] rest).symm.trans (hsplit.trans (List.append_assoc _ _ _))
    replace hlegs := List.append_cancel_left hlegs
    rw [hlegs]
    rfl

/-- A search for the sources in a directory without wildcards follows the pieces of its path as they are. -/
theorem search_plain {input : Path} (h : input.text ≠ "") (hplain : Plain input.text.toList) :
    search t (input.join "*.vm") =
      .ok (paths t (input.legs.map .literal ++ [.entries sourceTokens]) input.base) := by
  have hname : '/' ∉ ['*', '.', 'v', 'm'] := by decide
  have hstretch : Plain (input.stretch ++ ['/']) := by
    refine List.forall_mem_append.2 ⟨fun c hc => hplain c ?_, by simp [IsWildcard]⟩
    obtain htext | htext := input.text_stretch
    · rwa [htext]
    · rw [htext]
      exact List.mem_append_left _ hc
  have hwhole : parsePattern (input.join (String.ofList ['*', '.', 'v', 'm'])).text.toList =
      .ok ((input.stretch ++ ['/']).map .char ++ sourceTokens) := by
    rw [Path.join_text h, ← parsePattern_sources hstretch, List.append_assoc]
    rfl
  have hlegs : ∀ piece ∈ input.legs, parsePattern piece = .ok (piece.map .char) := fun piece hpiece =>
    parsePattern_plain fun c hc => hplain c (Path.mem_of_mem_legs hpiece hc)
  have hparts : (input.legs ++ [['*', '.', 'v', 'm']]).mapM parsePattern =
      .ok (input.legs.map (·.map .char) ++ [sourceTokens]) := by
    rw [List.mapM_append, mapM_eq_ok hlegs]
    rfl
  refine (search_join h hname hwhole).trans ?_
  rw [hparts]
  exact congrArg (fun way => Except.ok (paths t way input.base)) (steps_literals _ _)

def sourceNames (t : Tree) (place : Place) : List String :=
  (t.children place).filter fun name => matchesName sourceTokens name.toList

theorem mem_sourceNames {name : String} : name ∈ sourceNames t place ↔
    (t.node? (place ++ [name])).isSome ∧ ∃ stem, name = stem ++ ".vm" := by
  have hform : matchesName sourceTokens name.toList ↔ ∃ stem, name = stem ++ ".vm" := by
    rw [matchesName_sourceTokens]
    constructor
    · rintro ⟨stem, hstem⟩
      exact ⟨String.ofList stem, String.toList_injective (by simp [hstem])⟩
    · rintro ⟨stem, rfl⟩
      exact ⟨stem.toList, by simp⟩
  rw [sourceNames, List.mem_filter, Tree.mem_children, hform]

theorem Tree.Proper.sourceNames_ascending (h : t.Proper) (place : Place) :
    (sourceNames t place).Pairwise (· < ·) := (h.children_ascending place).filter _

theorem paths_entries {p : Path} (h : t.directory? p = some place) (tokens : List Token) (rest : List Step) :
    paths t (.entries tokens :: rest) p =
      (dotEntries tokens).flatMap (fun name => paths t rest (p.join name)) ++
        ((t.children place).filter fun name => matchesName tokens name.toList).flatMap
          fun name => paths t rest (entryPath p name) := by
  rw [paths, h]

theorem paths_sources {d : Path} (h : t.Leads d place) (hsize : d.text.utf8ByteSize ≤ Tree.maxPath) :
    paths t [.entries sourceTokens] d = (sourceNames t place).map (entryPath d) := by
  have hdots : dotEntries sourceTokens = [] := by decide
  rw [paths_entries (Tree.directory?_eq_some_iff.2 ⟨h, hsize⟩), hdots, List.map_eq_flatMap]
  rfl

theorem mem_paths_sources {p q : Path} (h : q ∈ paths t [.entries sourceTokens] p) :
    ∃ place, ∃ file ∈ sourceNames t place, q = entryPath p file := by
  have hdots : dotEntries sourceTokens = [] := by decide
  rw [paths] at h
  split at h
  next => cases h
  next place hplace =>
    rw [hdots] at h
    obtain ⟨file, hfile, hq⟩ := List.mem_flatMap.1 h
    exact ⟨place, file, hfile, List.mem_singleton.1 hq⟩

end Sources

end HackStack.Files
