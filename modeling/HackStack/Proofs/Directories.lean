import HackStack.Proofs.Paths
import HackStack.Proofs.Trees
import Mathlib.Data.List.Nodup

set_option autoImplicit false

namespace HackStack

theorem Text.not_mem_of_mem_splitAt {sep : Char} {text piece : List Char} (h : piece ∈ splitAt sep text) :
    sep ∉ piece := by
  induction text generalizing piece with
  | nil =>
    obtain rfl := List.mem_singleton.1 h
    exact List.not_mem_nil
  | cons c text ih =>
    simp only [splitAt, pieces, List.foldr_cons] at h ih
    split at h
    next =>
      obtain rfl | h := List.mem_cons.1 h
      · exact List.not_mem_nil
      · exact ih h
    next hc =>
      obtain rfl | h := List.mem_cons.1 h
      · exact List.not_mem_cons_of_ne_of_not_mem (Ne.symm hc) (ih List.mem_cons_self)
      · exact ih (List.mem_cons_of_mem _ h)

theorem Text.sublist_of_mem_splitAt {sep : Char} {text piece : List Char} (h : piece ∈ splitAt sep text) :
    piece.Sublist text := by
  induction text generalizing piece with
  | nil =>
    obtain rfl := List.mem_singleton.1 h
    exact List.nil_sublist _
  | cons c text ih =>
    simp only [splitAt, pieces, List.foldr_cons] at h ih
    split at h
    next =>
      obtain rfl | h := List.mem_cons.1 h
      · exact List.nil_sublist _
      · exact (ih h).cons c
    next =>
      obtain rfl | h := List.mem_cons.1 h
      · exact (ih List.mem_cons_self).cons_cons c
      · exact (ih (List.mem_cons_of_mem _ h)).cons c

namespace Files.Tree

open Text

variable {t : Tree} {p : Path} {place : Place} {name : String}

section Finding

theorem requireShort_eq_ok {limit : Nat} {text : String} :
    requireShort limit text = .ok () ↔ text.utf8ByteSize ≤ limit := by
  unfold requireShort
  split <;> simp_all

theorem pieces_cases (p : Path) : pieces p = p.names ∨ pieces p = p.names ++ [['.']] := by
  unfold pieces
  dsimp only
  split
  · exact .inr rfl
  · exact .inl rfl

theorem walk_cons {piece : List Char} {more : List (List Char)} {place : Place} (start : Place) :
    t.walk start (piece :: more) = .ok place ↔ t.node? start = some .directory ∧
      requireShort maxName (String.ofList piece) = .ok () ∧ t.walk (enter start piece) more = .ok place := by
  rw [walk, ← requireDirectory_eq_ok]
  cases t.requireDirectory start with
  | error cause => simp [bind, Except.bind]
  | ok => cases requireShort maxName (String.ofList piece) <;> simp [bind, Except.bind]

theorem walk_here (h : t.node? place = some .directory) : t.walk place [['.']] = .ok place :=
  (walk_cons place).2 ⟨h, requireShort_eq_ok.2 (by decide), rfl⟩

theorem walk_pieces (p : Path) (start : Place) (h : t.node? place = some .directory) :
    t.walk start (pieces p) = .ok place ↔ t.walk start p.names = .ok place := by
  obtain hpieces | hpieces := pieces_cases p
  · rw [hpieces]
  · rw [hpieces, walk_append]
    constructor
    · intro hwalk
      obtain ⟨above, habove, hlast⟩ := bind_eq_ok hwalk
      obtain ⟨-, -, hend⟩ := (walk_cons above).1 hlast
      rw [habove]
      exact hend
    · intro hwalk
      rw [hwalk]
      exact walk_here h

structure Leads (t : Tree) (p : Path) (place : Place) : Prop where
  ne_empty : p.text ≠ ""
  walk : t.walk (t.start p) p.names = .ok place
  directory : t.node? place = some .directory

theorem directory?_eq_some_iff :
    t.directory? p = some place ↔ t.Leads p place ∧ p.text.utf8ByteSize ≤ maxPath := by
  have hfind : t.find p = .ok (place, .directory) ↔ t.Leads p place ∧ p.text.utf8ByteSize ≤ maxPath := by
    rw [← requireShort_eq_ok]
    constructor
    · intro h
      unfold find at h
      split at h
      next => cases h
      next hne =>
        obtain ⟨_, hshort, h⟩ := bind_eq_ok h
        obtain ⟨found, hwalk, h⟩ := bind_eq_ok h
        split at h
        next hnode =>
          cases h
          exact ⟨⟨hne, (walk_pieces p _ hnode).1 hwalk, hnode⟩, hshort⟩
        next => cases h
    · rintro ⟨⟨hne, hwalk, hnode⟩, hshort⟩
      rw [find, if_neg hne, hshort]
      simp only [bind, Except.bind, (walk_pieces p _ hnode).2 hwalk, hnode]
  rw [← hfind, directory?]
  split
  next h => simp [h]
  next h =>
    refine iff_of_false (by simp) fun heq => ?_
    exact h place heq

theorem Leads.contains (h : t.Leads p place) (hshort : p.text.utf8ByteSize ≤ maxPath) :
    t.contains p ∧ t.isDirectory p := by
  have hdirectory := directory?_eq_some_iff.2 ⟨h, hshort⟩
  refine ⟨?_, Option.isSome_iff_exists.2 ⟨place, hdirectory⟩⟩
  unfold directory? at hdirectory
  unfold Tree.contains
  split at hdirectory
  next hfind => rw [hfind]
  next => cases hdirectory

end Finding

section Children

def nameIn (place : Place) (below : Place) : Option String :=
  match below.getLast? with
  | some name => if below.dropLast = place then some name else none
  | none => none

theorem nameIn_eq_some_iff {below : Place} : nameIn place below = some name ↔ below = place ++ [name] := by
  unfold nameIn
  split
  next last hlast =>
    obtain ⟨above, rfl⟩ := List.getLast?_eq_some_iff.1 hlast
    rw [List.dropLast_concat]
    split
    next heq => simp [heq]
    next hne => simpa using fun h _ => absurd h hne
  next hnone => simp [List.getLast?_eq_none_iff.1 hnone]

theorem children_perm (t : Tree) (place : Place) :
    (t.children place).Perm ((t.nodes.map Prod.fst).filterMap (nameIn place)) := by
  rw [List.filterMap_map]
  exact List.mergeSort_perm _ _

/-- The names in a directory are those of the nodes one step below it. -/
theorem mem_children : name ∈ t.children place ↔ (t.node? (place ++ [name])).isSome := by
  rw [(children_perm t place).mem_iff, List.mem_filterMap]
  simp only [nameIn_eq_some_iff, exists_eq_right, List.mem_map]
  rw [node?, if_neg (by simp), ← not_iff_not, Bool.not_eq_true, Option.isSome_eq_false_iff,
    Option.isNone_iff_eq_none, List.lookup_eq_none_iff]
  constructor
  · intro hnot entry hentry
    rw [bne_iff_ne]
    exact fun heq => hnot ⟨entry, hentry, heq.symm⟩
  · rintro hall ⟨entry, hentry, heq⟩
    simpa [heq] using hall entry hentry

theorem children_sorted (t : Tree) (place : Place) : (t.children place).Pairwise (· ≤ ·) := by
  have htrans (a b c : String) (hab : decide (a ≤ b)) (hbc : decide (b ≤ c)) : decide (a ≤ c) :=
    decide_eq_true (le_trans (of_decide_eq_true hab) (of_decide_eq_true hbc))
  have htotal (a b : String) : (decide (a ≤ b) || decide (b ≤ a)) = true := by
    simpa using le_total a b
  exact (List.pairwise_mergeSort htrans htotal _).imp of_decide_eq_true

end Children

section Proper

/-- A place that no path cuts differently: its names have no slashes. -/
def Slashless (place : Place) : Prop := ∀ name ∈ place, '/' ∉ name.toList

theorem slashless_enter {piece : List Char} (h : Slashless place) (hpiece : '/' ∉ piece) :
    Slashless (enter place piece) := by
  unfold enter
  split_ifs
  · exact h
  · exact fun name hname => h name ((List.dropLast_sublist _).subset hname)
  · refine List.forall_mem_append.2 ⟨h, List.forall_mem_singleton.2 ?_⟩
    rwa [String.toList_ofList]

/-- A tree as a disk holds it: every place once, and no name with a slash in it. -/
structure Proper (t : Tree) : Prop where
  distinct : (t.nodes.map Prod.fst).Nodup
  names : ∀ place ∈ t.nodes.map Prod.fst, Slashless place
  current : Slashless t.current

namespace Proper

theorem children_ascending (h : t.Proper) (place : Place) : (t.children place).Pairwise (· < ·) := by
  have hnodup : (t.children place).Nodup := by
    rw [(children_perm t place).nodup_iff]
    refine List.Nodup.filterMap (fun a b name ha hb => ?_) h.distinct
    rw [nameIn_eq_some_iff.1 ha, nameIn_eq_some_iff.1 hb]
  exact (children_sorted t place).imp₂ (fun _ _ => lt_of_le_of_ne) hnodup

theorem slash_of_mem_children (h : t.Proper) (hname : name ∈ t.children place) :
    '/' ∉ name.toList := by
  rw [(children_perm t place).mem_iff, List.mem_filterMap] at hname
  obtain ⟨below, hbelow, heq⟩ := hname
  rw [nameIn_eq_some_iff] at heq
  exact h.names below hbelow name (heq ▸ by simp)

theorem insert (h : t.Proper) (hplace : Slashless place) (node : Node) : (t.insert place node).Proper := by
  have hsublist : ((t.nodes.filter fun entry => entry.1 != place).map Prod.fst).Sublist
      (t.nodes.map Prod.fst) := List.filter_sublist.map _
  refine ⟨List.nodup_cons.2 ⟨?_, h.distinct.sublist hsublist⟩,
    List.forall_mem_cons.2 ⟨hplace, fun q hq => h.names q (hsublist.subset hq)⟩, h.current⟩
  rw [List.mem_map]
  rintro ⟨entry, hentry, rfl⟩
  simpa using (List.mem_filter.1 hentry).2

theorem makeDirectories (h : t.Proper) (hplace : Slashless place) : (t.makeDirectories place).Proper := by
  unfold Tree.makeDirectories
  refine List.foldlRecOn _ _ h fun u hu n _ => ?_
  split
  · exact hu
  · exact hu.insert (fun name hname => hplace name (List.mem_of_mem_take hname)) .directory

theorem empty (h : Slashless place) : (Tree.empty place).Proper :=
  makeDirectories ⟨List.nodup_nil, List.forall_mem_nil _, h⟩ h

theorem slashless_place (h : t.Proper) (p : Path) : Slashless (t.place p) := by
  have hnames : ∀ piece ∈ p.names, '/' ∉ piece := fun piece hpiece =>
    not_mem_of_mem_splitAt (List.mem_filter.1 hpiece).1
  have hpieces : ∀ piece ∈ pieces p, '/' ∉ piece := by
    obtain hcut | hcut := pieces_cases p <;> rw [hcut]
    · exact hnames
    · exact List.forall_mem_append.2 ⟨hnames, by decide⟩
  have hstart : Slashless (t.start p) := by
    unfold start
    split
    · exact List.forall_mem_nil _
    · exact h.current
  exact List.foldlRecOn (motive := Slashless) (pieces p) enter hstart fun above habove piece hpiece =>
    slashless_enter habove (hpieces piece hpiece)

/-- A tree stays proper when nodes are put where paths lead. -/
theorem add (h : t.Proper) (p : Path) (node : Node) : (t.add p node).Proper := by
  have hplace := h.slashless_place p
  cases node with
  | directory => exact h.makeDirectories hplace
  | file content =>
    have habove : Slashless (t.directoryAbove p) := fun name hname =>
      hplace name ((List.dropLast_sublist _).subset hname)
    exact (h.makeDirectories habove).insert hplace _

end Proper

end Proper

end Files.Tree

end HackStack
