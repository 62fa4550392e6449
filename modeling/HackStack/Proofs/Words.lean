import HackStack.Text.Lines

set_option autoImplicit false

namespace HackStack.Text

/-- `part` is the line up to the first two slashes, or all of a line that has none. -/
structure UpToComment (line part : List Char) : Prop where
  cut : part = line ∨ part ++ ['/', '/'] <+: line
  first : ∀ before, before ++ ['/', '/'] <+: line → part.length ≤ before.length

namespace UpToComment

variable {line part other : List Char}

theorem isPrefix (h : UpToComment line part) : part <+: line := by
  obtain rfl | h := h.cut
  · exact List.prefix_rfl
  · exact (List.prefix_append part _).trans h

theorem length_le (h : UpToComment line part) (h' : UpToComment line other) :
    part.length ≤ other.length := by
  obtain rfl | hcut := h'.cut
  · exact h.isPrefix.length_le
  · exact h.first other hcut

theorem unique (h : UpToComment line part) (h' : UpToComment line other) : part = other := by
  have hlength : part.length = other.length := Nat.le_antisymm (h.length_le h') (h'.length_le h)
  have hprefix : part <+: other :=
    List.prefix_of_prefix_length_le h.isPrefix h'.isPrefix (Nat.le_of_eq hlength)
  exact hprefix.eq_of_length hlength

theorem cons {c : Char} (hc : ¬ ['/', '/'] <+: c :: line) (h : UpToComment line part) :
    UpToComment (c :: line) (c :: part) := by
  constructor
  · obtain rfl | hcut := h.cut
    · exact .inl rfl
    · exact .inr ((List.prefix_cons_inj c).2 hcut)
  · intro before hbefore
    cases before with
    | nil => exact absurd hbefore hc
    | cons b before =>
      have htail : before ++ ['/', '/'] <+: line := (List.cons_prefix_cons.1 hbefore).2
      have hle := h.first before htail
      simpa using hle

theorem self (h : '/' ∉ line) : UpToComment line line := by
  refine ⟨.inl rfl, fun before hbefore => ?_⟩
  have hmem : '/' ∈ before ++ ['/', '/'] := by simp
  exact absurd (hbefore.subset hmem) h

end UpToComment

theorem beforeCommentFrom_upToComment (kept line : List Char) :
    ∃ part, beforeCommentFrom kept line = kept.reverse ++ part ∧ UpToComment line part := by
  fun_induction beforeCommentFrom kept line with
  | case1 kept rest =>
    exact ⟨[], by simp, .inr (by simp), fun _ _ => Nat.zero_le _⟩
  | case2 kept c rest hc ih =>
    obtain ⟨part, hpart, hup⟩ := ih
    refine ⟨c :: part, by simp [hpart], hup.cons ?_⟩
    rintro ⟨tail, htail⟩
    simp only [List.cons_append, List.nil_append, List.cons.injEq] at htail
    exact hc tail htail.1.symm htail.2.symm
  | case3 kept =>
    exact ⟨[], by simp, .self (by simp)⟩

theorem upToComment_iff {line part : List Char} :
    UpToComment line part ↔ part = beforeComment line := by
  obtain ⟨found, hfound, hup⟩ := beforeCommentFrom_upToComment [] line
  have hbefore : beforeComment line = found := hfound
  rw [hbefore]
  constructor
  · exact fun h => h.unique hup
  · rintro rfl
    exact hup

theorem beforeComment_eq_self {line : List Char} (h : '/' ∉ line) : beforeComment line = line :=
  (upToComment_iff.1 (.self h)).symm

/-- Words are read from the right: the piece under construction is the first of the split. -/
theorem foldr_wordStep (text : List Char) : ∃ piece pieces,
    text.splitOnP isBlank = piece :: pieces ∧
      text.foldr wordStep ([], []) = (piece, pieces.filter (!·.isEmpty)) := by
  induction text with
  | nil => exact ⟨[], [], List.splitOnP_nil, rfl⟩
  | cons c text ih =>
    obtain ⟨piece, pieces, hsplit, hfold⟩ := ih
    rw [List.splitOnP_cons_eq_if_modifyHead, hsplit, List.foldr_cons, hfold, wordStep]
    by_cases hc : isBlank c
    · refine ⟨[], piece :: pieces, if_pos hc, ?_⟩
      rw [if_pos hc, List.filter_cons]
      cases piece <;> rfl
    · exact ⟨c :: piece, pieces, if_neg hc, if_neg hc⟩

theorem words_eq (text : List Char) :
    words text = (text.splitOnP isBlank).filter (!·.isEmpty) := by
  obtain ⟨piece, pieces, hsplit, hfold⟩ := foldr_wordStep text
  rw [words, hfold, hsplit, List.filter_cons]
  cases piece <;> rfl

def IsWord (w : List Char) : Prop := w ≠ [] ∧ ∀ c ∈ w, isBlank c = false

theorem splitOnP_intercalate {w : List Char} {ws : List (List Char)} (h : ∀ v ∈ w :: ws, IsWord v) :
    (([' '] : List Char).intercalate (w :: ws)).splitOnP isBlank = w :: ws := by
  induction ws generalizing w with
  | nil =>
    rw [List.intercalate_singleton]
    exact List.splitOnP_eq_singleton (h w List.mem_cons_self).2
  | cons v ws ih =>
    obtain ⟨hw, hws⟩ := List.forall_mem_cons.1 h
    rw [List.intercalate_cons_cons, List.append_assoc, List.singleton_append,
      List.splitOnP_append_cons_of_forall_mem hw.2 ' ' rfl, ih hws]

theorem words_intercalate {ws : List (List Char)} (h : ∀ w ∈ ws, IsWord w) :
    words ([' '].intercalate ws) = ws := by
  cases ws with
  | nil => rfl
  | cons w ws =>
    rw [words_eq, splitOnP_intercalate h]
    refine List.filter_eq_self.2 fun v hv => ?_
    simpa using (h v hv).1

end HackStack.Text
