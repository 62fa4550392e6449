import HackStack.Files.Tree
import HackStack.Proofs.Reading

set_option autoImplicit false

namespace HackStack

/-- The last piece is empty only behind a separator. -/
theorem Text.of_getLast?_splitAt {sep : Char} {text : List Char}
    (h : (splitAt sep text).getLast? = some []) : text = [] ∨ text.getLast? = some sep := by
  induction text with
  | nil => exact .inl rfl
  | cons c text ih =>
    right
    by_cases hc : c = sep
    · have hcut : splitAt sep (c :: text) = [] :: splitAt sep text := by
        simp only [splitAt, pieces, List.foldr_cons, if_pos hc]
      rw [hcut, splitAt, List.getLast?_cons_cons, ← splitAt] at h
      rcases ih h with rfl | hlast
      · rw [hc]
        rfl
      · rw [List.getLast?_cons, hlast]
        rfl
    · have hcut : splitAt sep (c :: text) = (c :: (pieces sep text).1) :: (pieces sep text).2 := by
        simp only [splitAt, pieces, List.foldr_cons, if_neg hc]
      rw [hcut] at h
      cases hrest : (pieces sep text).2 with
      | nil =>
        rw [hrest] at h
        cases h
      | cons piece rest =>
        have hlast : (splitAt sep text).getLast? = some [] := by
          rw [hrest, List.getLast?_cons_cons] at h
          rw [splitAt, hrest, List.getLast?_cons_cons, h]
        rcases ih hlast with rfl | hlast
        · cases hrest
        · rw [List.getLast?_cons, hlast]
          rfl

namespace Files.Tree

variable {t u : Tree} {place other : Place} {node : Node} {p : Path} {text : String}

theorem node?_insert_self (h : place ≠ []) : (t.insert place node).node? place = some node := by
  rw [node?, if_neg h, insert, List.lookup_cons_self]

theorem node?_insert_ne (h : other ≠ place) :
    (t.insert place node).node? other = t.node? other := by
  unfold node?
  split
  next => rfl
  next =>
    have hlookup : (t.nodes.filter fun entry => entry.1 != place).lookup other =
        t.nodes.lookup other := by
      induction t.nodes with
      | nil => rfl
      | cons entry rest ih =>
        obtain ⟨key, value⟩ := entry
        by_cases hkey : key = place
        · have hne : (other == key) = false := by
            rw [hkey]
            exact beq_false_of_ne h
          rw [List.filter_cons_of_neg (by simp [hkey]), ih, List.lookup_cons, hne]
        · rw [List.filter_cons_of_pos (by simp [hkey]), List.lookup_cons, List.lookup_cons, ih]
    rw [insert, List.lookup_cons, beq_false_of_ne h]
    exact hlookup

theorem requireDirectory_eq_ok : t.requireDirectory place = .ok () ↔
    t.node? place = some .directory := by
  unfold requireDirectory
  split
  next h => simp [h]
  next h => simp [h]
  next h => simp [h]

theorem walk_append (place : Place) (xs ys : List (List Char)) :
    t.walk place (xs ++ ys) = (t.walk place xs >>= fun place => t.walk place ys) := by
  induction xs generalizing place with
  | nil => rfl
  | cons piece xs ih =>
    simp only [List.cons_append, walk, ih, bind_assoc]

/-- A tree with the same directories and more leads a path to the same place. -/
theorem walk_mono (h : ∀ q, t.node? q = some .directory → u.node? q = some .directory)
    {q : Place} {pieces : List (List Char)} (hwalk : t.walk place pieces = .ok q) :
    u.walk place pieces = .ok q := by
  induction pieces generalizing place with
  | nil => exact hwalk
  | cons piece pieces ih =>
    obtain ⟨_, hdirectory, hwalk⟩ := bind_eq_ok hwalk
    obtain ⟨_, hshort, hwalk⟩ := bind_eq_ok hwalk
    have hdirectory' := requireDirectory_eq_ok.2 (h place (requireDirectory_eq_ok.1 hdirectory))
    rw [walk, hdirectory', hshort]
    exact ih hwalk

theorem target_spec (h : t.target p = .ok place) :
    ∃ names last above, pieces p = names ++ [last] ∧ p.text ≠ "" ∧
      requireShort maxPath p.text = .ok () ∧ t.walk (t.start p) names = .ok above ∧
      t.requireDirectory above = .ok () ∧ requireShort maxName (String.ofList last) = .ok () ∧
      place = enter above last ∧ place ≠ [] ∧ t.node? place ≠ some .directory := by
  obtain ⟨_, hshort, h⟩ := bind_eq_ok h
  dsimp only at h
  split at h
  next => split at h <;> cases h
  next last hlast =>
    split at h
    next =>
      obtain ⟨_, _, h⟩ := bind_eq_ok h
      cases h
    next hname =>
      obtain ⟨above, hwalk, h⟩ := bind_eq_ok h
      obtain ⟨_, hdirectory, h⟩ := bind_eq_ok h
      split at h
      next => cases h
      next hslash =>
        obtain ⟨_, hlength, h⟩ := bind_eq_ok h
        split at h
        next => cases h
        next hnode =>
          cases h
          simp only [Bool.or_eq_true, decide_eq_true_eq, not_or] at hname
          have hplace : enter above last = above ++ [String.ofList last] := by
            rw [enter, if_neg hname.1, if_neg hname.2]
          have htext : p.text ≠ "" := by
            intro hempty
            rw [hempty] at hlast
            cases hlast
          have hpieces : pieces p = _ := if_neg fun hcut => by
            rcases Text.of_getLast?_splitAt hcut with hnil | hsep
            · exact htext (String.toList_eq_nil_iff.1 hnil)
            · exact hslash hsep
          obtain ⟨names, hnames⟩ := List.getLast?_eq_some_iff.1 hlast
          rw [hnames, List.dropLast_concat] at hwalk
          refine ⟨names, last, above, hpieces.trans hnames, htext, hshort, hwalk, hdirectory, hlength,
            rfl, ?_, hnode⟩
          rw [hplace]
          exact List.append_ne_nil_of_right_ne_nil _ (List.cons_ne_nil _ _)

/-- A write changes the node of the place that the path leads to and nothing else. -/
theorem write_spec (h : t.write p text = .ok u) :
    ∃ place, t.target p = .ok place ∧ u.current = t.current ∧
      u.node? place = some (.file text.toUTF8) ∧ ∀ q, q ≠ place → u.node? q = t.node? q := by
  obtain ⟨place, htarget, h⟩ := bind_eq_ok h
  cases h
  obtain ⟨-, -, -, -, -, -, -, -, -, -, hplace, -⟩ := target_spec htarget
  exact ⟨place, htarget, rfl, node?_insert_self hplace, fun q hq => node?_insert_ne hq⟩

theorem read_of_find (h : t.find p = .ok (place, .file text.toUTF8)) : t.read p = .ok text := by
  have hvalid : String.fromUTF8? text.toUTF8 = some text := dif_pos text.isValidUTF8
  simp only [read, h, bind, Except.bind, hvalid]

theorem read_of_write (h : t.write p text = .ok u) : u.read p = .ok text := by
  obtain ⟨place, htarget, hcurrent, hnode, hothers⟩ := write_spec h
  obtain ⟨names, last, above, hpieces, htext, hshort, hwalk, hdirectory, hlength, hplace, -, hfile⟩ :=
    target_spec htarget
  have hkept (q : Place) (hq : t.node? q = some .directory) : u.node? q = some .directory := by
    rw [hothers q fun heq => hfile (heq ▸ hq), hq]
  have hstart : u.start p = t.start p := by
    rw [start, start, hcurrent]
  have hdirectory' := requireDirectory_eq_ok.2 (hkept above (requireDirectory_eq_ok.1 hdirectory))
  have hplace' : u.walk (u.start p) (pieces p) = .ok place := by
    rw [hstart, hpieces, walk_append, walk_mono hkept hwalk, hplace]
    change (u.requireDirectory above >>= fun _ => _) = _
    rw [hdirectory']
    change (requireShort maxName (String.ofList last) >>= fun _ => _) = _
    rw [hlength]
    rfl
  have hfind : u.find p = .ok (place, .file text.toUTF8) := by
    rw [find, if_neg htext, hshort]
    simp only [bind, Except.bind, hplace', hnode]
  exact read_of_find hfind

end Files.Tree

end HackStack
