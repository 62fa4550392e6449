import HackStack.Proofs.Scopes

set_option autoImplicit false

namespace HackStack

namespace Text

def isVacant (line : List Char) : Bool := (beforeComment line).all isBlank

theorem words_cons_blank {c : Char} (hc : isBlank c) (text : List Char) :
    words (c :: text) = words text := by
  simp only [words, List.foldr_cons, wordStep, if_pos hc]
  rfl

theorem words_cons_ne_nil {c : Char} (hc : ¬ isBlank c) (text : List Char) :
    words (c :: text) ≠ [] := by
  simp [words, wordStep, hc]

theorem words_eq_nil_iff (text : List Char) : words text = [] ↔ text.all isBlank := by
  induction text with
  | nil => exact iff_of_true rfl rfl
  | cons c text ih =>
    by_cases hc : isBlank c
    · rw [words_cons_blank hc, ih, List.all_cons, hc, Bool.true_and]
    · refine iff_of_false (words_cons_ne_nil hc text) ?_
      simp [hc]

theorem pairwise_zipIdx {α : Type} (xs : List α) (n : Nat) :
    (xs.zipIdx n).Pairwise fun a b => a.2 < b.2 := by
  have hindices : ((xs.zipIdx n).map Prod.snd).Pairwise (· < ·) := by
    rw [List.zipIdx_map_snd]
    exact List.pairwise_lt_range'
  exact List.pairwise_map.1 hindices

end Text

namespace Command

open Text

section Complaint

variable {α β : Type}

def complaint? : Except Malformed α → Option Malformed
  | .ok _ => none
  | .error cause => some cause

theorem complaint?_map (f : α → β) (x : Except Malformed α) :
    complaint? (f <$> x) = complaint? x := by
  cases x <;> rfl

theorem complaint?_labelled (scope : Option String) (make : String → Command) (name : List Char) :
    complaint? (readLabelled scope make name) = complaint? (readName name) :=
  complaint?_map (fun name => make (qualify scope name)) (readName name)

theorem complaint?_withOne {read other : List Char → Except Malformed Command} (keyword : String)
    (operands : List (List Char)) (h : ∀ x, complaint? (read x) = complaint? (other x)) :
    complaint? (withOne keyword operands read) = complaint? (withOne keyword operands other) := by
  unfold withOne
  split
  next x => exact h x
  next => rfl

theorem complaint?_readKeyword (scope : Option String) (keyword : String)
    (operands : List (List Char)) :
    complaint? (readKeyword scope keyword operands) =
      complaint? (readKeyword none keyword operands) := by
  have hlabel (make : String → Command) :
      complaint? (withOne keyword operands (readLabelled scope make)) =
        complaint? (withOne keyword operands (readLabelled none make)) :=
    complaint?_withOne keyword operands fun x => by rw [complaint?_labelled, complaint?_labelled]
  unfold readKeyword
  split
  case h_3 | h_4 | h_5 => exact hlabel _
  all_goals rfl

/-- A line is rejected, and for the same reason, whatever function is around it. -/
theorem complaint?_readLine (scope : Option String) (line : List Char) :
    complaint? (readLine scope line) = complaint? (readLine none line) := by
  unfold readLine readWords
  split
  next => rfl
  next word operands =>
    dsimp only
    split
    next => rfl
    next => rw [complaint?_map, complaint?_map, complaint?_readKeyword]

end Complaint

section Verdicts

variable (file : String)

def verdict (line : List Char) (n : Nat) : Option SourceError :=
  (complaint? (readLine none line)).map (·.toError ⟨file, n⟩)

theorem errorAt?_eq (scope : Option String) (line : List Char) (n : Nat) :
    errorAt? file (readLine scope line, n) = verdict file line n := by
  rw [verdict, ← complaint?_readLine scope]
  cases readLine scope line <;> rfl

theorem location?_toError (cause : Malformed) (location : Location) :
    (cause.toError location).location? = some location := by
  unfold Malformed.toError
  split <;> rfl

theorem location?_verdict {line : List Char} {n : Nat} {e : SourceError}
    (h : verdict file line n = some e) : e.location? = some ⟨file, n⟩ := by
  obtain ⟨cause, -, rfl⟩ := Option.map_eq_some_iff.1 h
  exact location?_toError cause _

theorem filterMap_outcomes (scope : Option String) (ls : List (List Char)) (n : Nat) :
    ((outcomes scope ls).zipIdx n).filterMap (errorAt? file) =
      (ls.zipIdx n).filterMap fun l => verdict file l.1 l.2 := by
  induction ls generalizing scope n with
  | nil => rfl
  | cons line ls ih =>
    rw [outcomes, List.zipIdx_cons, List.zipIdx_cons, List.filterMap_cons, List.filterMap_cons,
      errorAt?_eq, ih]

/-- The commands of lines that are all accepted stand on the lines that are not vacant. -/
theorem locations_outcomes (scope : Option String) (ls : List (List Char)) (n : Nat)
    (h : ∀ o ∈ outcomes scope ls, ∃ r, o = .ok r) :
    (((outcomes scope ls).zipIdx n).filterMap (commandAt? file)).map (·.location) =
      ((ls.zipIdx n).filter fun l => !isVacant l.1).map fun l => ⟨file, l.2⟩ := by
  induction ls generalizing scope n with
  | nil => rfl
  | cons line ls ih =>
    obtain ⟨⟨r, hr⟩, htail⟩ := List.forall_mem_cons.1 h
    have hvacant : r = none ↔ isVacant line := by
      rw [isVacant, ← words_eq_nil_iff, ← @readLine_none_iff scope, hr, Except.ok.injEq]
    have hrest := ih _ (n + 1) htail
    rw [outcomes, List.zipIdx_cons, List.zipIdx_cons, List.filterMap_cons, List.filter_cons, hr]
    rw [hr] at hrest
    cases r with
    | none => simpa [commandAt?, hvacant.1 rfl] using hrest
    | some c =>
      have hfull : isVacant line = false := by simpa using hvacant
      simpa [commandAt?, hfull] using hrest

namespace Reader

theorem line_error_iff {r : Reader} {text : List Char} {n : Nat} {e : SourceError} :
    (r.line text n).1 = .error e ↔ verdict r.file text n = some e := by
  rw [← errorAt?_eq r.file r.scope]
  unfold line
  cases readLine r.scope text with
  | ok c => simp [errorAt?]
  | error cause => simp [errorAt?]

theorem line_ok_iff {r : Reader} {text : List Char} {n : Nat} {c : Option Command} :
    (r.line text n).1 = .ok c ↔ readLine r.scope text = .ok c := by
  unfold line
  cases readLine r.scope text with
  | ok d => simp
  | error cause => simp

theorem line_snd (r : Reader) (text : List Char) (n : Nat) :
    (r.line text n).2 = { r with scope := scopeAfter r.scope (readLine r.scope text).toOption.join } := by
  unfold line
  cases readLine r.scope text <;> rfl

theorem line_snd_of_rejected {r : Reader} {text : List Char} {n : Nat}
    (h : verdict r.file text n ≠ none) : (r.line text n).2 = r := by
  obtain ⟨e, he⟩ := Option.ne_none_iff_exists'.1 h
  rw [← errorAt?_eq r.file r.scope] at he
  rw [line_snd]
  cases hread : readLine r.scope text with
  | ok c => simp [hread, errorAt?] at he
  | error cause => rfl

def behind (r : Reader) (ls : List (List Char × Nat)) : Reader :=
  ls.foldl (fun r l => (r.line l.1 l.2).2) r

theorem behind_eq (r : Reader) (ls : List (List Char)) (n : Nat) :
    r.behind (ls.zipIdx n) = { r with scope := scopeBehind r.scope ls } := by
  induction ls generalizing r n with
  | nil => rfl
  | cons l ls ih =>
    change behind (r.line l n).2 (ls.zipIdx (n + 1)) = _
    rw [ih, line_snd]
    rfl

/-- Lines that are rejected might as well not be there. -/
theorem behind_accepted (r : Reader) (ls : List (List Char × Nat)) :
    r.behind (ls.filter fun l => verdict r.file l.1 l.2 = none) = r.behind ls := by
  induction ls generalizing r with
  | nil => rfl
  | cons l ls ih =>
    have hfile : (r.line l.1 l.2).2.file = r.file := by rw [line_snd]
    have htail := ih (r.line l.1 l.2).2
    rw [hfile] at htail
    rw [List.filter_cons]
    split
    next => exact htail
    next hrejected =>
      rw [line_snd_of_rejected (by simpa using hrejected)] at htail
      rw [htail]
      change r.behind ls = behind (r.line l.1 l.2).2 ls
      rw [line_snd_of_rejected (by simpa using hrejected)]

end Reader

end Verdicts

section Sources

variable (file : String)

theorem read_eq_error_iff {source : String} {errors : List SourceError} :
    read file source = .error errors ↔ errors ≠ [] ∧
      errors = ((lines source.toList).zipIdx 1).filterMap fun l => verdict file l.1 l.2 := by
  have herrors : (readSource file source).errors.toList =
      ((lines source.toList).zipIdx 1).filterMap fun l => verdict file l.1 l.2 := by
    have hfold := (foldl_next file (lines source.toList) 1 {}).2
    rwa [List.nil_append, filterMap_outcomes] at hfold
  rw [← herrors]
  simp only [read]
  split
  next hnone =>
    have hnil : (readSource file source).errors.toList = [] := by simpa using hnone
    simp [hnil]
  next hsome =>
    have hne : (readSource file source).errors.toList ≠ [] := by simpa using hsome
    rw [Except.error.injEq, eq_comm]
    exact ⟨fun h => ⟨h ▸ hne, h⟩, And.right⟩

theorem locations_read {file source : String} {commands : List Located}
    (h : read file source = .ok commands) :
    commands.map (·.location) =
      (((lines source.toList).zipIdx 1).filter fun l => !isVacant l.1).map fun l => ⟨file, l.2⟩ := by
  obtain ⟨hall, rfl⟩ := (read_eq_ok_iff file).1 h
  exact locations_outcomes file none (lines source.toList) 1 hall

theorem scope_foldl_next (ls : List (List Char)) (n : Nat) (r : Reading) :
    ((ls.zipIdx n).foldl (Reading.next file) r).scope = scopeBehind r.scope ls := by
  induction ls generalizing n r with
  | nil => rfl
  | cons line ls ih =>
    rw [List.zipIdx_cons, List.foldl_cons, ih, (next_spec file r line n).1]
    rfl

theorem source_fst (r : Reader) (text : String) : (r.source text).1 = read r.file text := by
  simp only [Reader.source]

/-- A whole source leaves the reader that its lines leave, read one by one from before the first
function on. -/
theorem source_snd (r : Reader) (text : String) :
    (r.source text).2 = Reader.behind ⟨r.file, none⟩ ((lines text.toList).zipIdx 1) := by
  rw [Reader.behind_eq]
  exact congrArg (Reader.mk r.file) (scope_foldl_next r.file (lines text.toList) 1 {})

/-- There is an error for every line of a file and its number, or none, such that every reader of the
file rejects exactly the lines with an error, with that error, and is left as it was by them. A source is
refused exactly if it has such a line, for the errors of these lines in order. If it is accepted, the
commands stand on the lines that are not vacant, with ascending numbers, and each is what its line reads
as behind the lines before it. Either way the reader is left as the accepted lines alone leave it. What
it has read before does not matter. -/
theorem source_errors_line_local : ∃ error? : List Char → Nat → Option SourceError,
    (∀ line n e, error? line n = some e → e.location? = some ⟨file, n⟩) ∧
    (∀ r : Reader, r.file = file → ∀ line n,
      (∀ e, (r.line line n).1 = .error e ↔ error? line n = some e) ∧
        (error? line n ≠ none → (r.line line n).2 = r)) ∧
    ∀ r : Reader, r.file = file → ∀ text,
      let numbered := (lines text.toList).zipIdx 1
      let read := r.source text
      ((∃ errors, read.1 = .error errors) ↔ ∃ l ∈ numbered, error? l.1 l.2 ≠ none) ∧
      (∀ errors, read.1 = .error errors → errors = numbered.filterMap fun l => error? l.1 l.2) ∧
      (∀ commands, read.1 = .ok commands →
        commands.map (·.location) =
            ((numbered.filter fun l => !isVacant l.1).map fun l => ⟨file, l.2⟩) ∧
          (commands.Pairwise fun c d => c.location.line < d.location.line) ∧
          ∀ i line, (lines text.toList)[i]? = some line → ∀ c, ⟨c, file, i + 1⟩ ∈ commands ↔
            ((Reader.behind ⟨file, none⟩ (((lines text.toList).take i).zipIdx 1)).line line (i + 1)).1 =
              .ok (some c)) ∧
      read.2 = Reader.behind ⟨file, none⟩ (numbered.filter fun l => error? l.1 l.2 = none) := by
  refine ⟨verdict file, fun _ _ _ => location?_verdict file, ?_, ?_⟩
  · rintro r rfl line n
    exact ⟨fun e => Reader.line_error_iff, Reader.line_snd_of_rejected⟩
  · rintro r rfl text
    simp only [source_fst, source_snd]
    refine ⟨?_, fun errors h => ((read_eq_error_iff r.file).1 h).2, fun commands h => ⟨?_, ?_, ?_⟩, ?_⟩
    · simp only [read_eq_error_iff]
      rw [exists_eq_right, ne_eq, List.filterMap_eq_nil_iff]
      simp
    · exact locations_read h
    · have hascending : (commands.map (·.location)).Pairwise fun a b => a.line < b.line := by
        rw [locations_read h, List.pairwise_map]
        exact (pairwise_zipIdx _ 1).filter _
      rwa [List.pairwise_map] at hascending
    · intro i line hline c
      rw [mem_read_iff h, Reader.line_ok_iff, Reader.behind_eq, hline]
      simp
    · exact (Reader.behind_accepted ⟨r.file, none⟩ _).symm

end Sources

end Command

end HackStack
