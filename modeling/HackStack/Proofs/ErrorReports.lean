import HackStack.Machine.Basic
import HackStack.Proofs.LineGrammar

set_option autoImplicit false

namespace HackStack

theorem Machine.exists_load {words : Array Word} (h : words.size ≤ Assembly.romSize) (m : Machine) :
    ∃ u, m.load words = .ok u :=
  ⟨_, if_neg (Nat.not_lt.2 h)⟩

namespace Assembly

open Text SymbolTable

/-- A line declares a label that is known already or that a line before it declares. The lines are
numbered from `first` on. -/
def Redeclares (known : String → Prop) (ls : List (List Char)) (first n : Nat) (name : String) : Prop :=
  ∃ before line after, ls = before ++ line :: after ∧ n = first + before.length ∧
    Says line (.label name) ∧ (known name ∨ ∃ l ∈ before, Says l (.label name))

section Malformed

theorem exists_cause (line : List Char) :
    ∃ cause, ¬ Grammatical line → readLine line = .error cause := by
  cases hline : readLine line with
  | error cause => exact ⟨cause, fun _ => rfl⟩
  | ok s => exact ⟨.badComp "", fun h => absurd (grammatical_iff.2 ⟨s, hline⟩) h⟩

theorem filterMap_errorAt? {cause : List Char → Malformed}
    (hcause : ∀ line, ¬ Grammatical line → readLine line = .error (cause line))
    (ls : List (List Char × Nat)) :
    ls.filterMap errorAt? =
      (ls.filter fun l => ¬ Grammatical l.1).map fun l => .malformed l.2 (cause l.1) := by
  induction ls with
  | nil => rfl
  | cons l ls ih =>
    rw [List.filterMap_cons, List.filter_cons, ih]
    by_cases hl : Grammatical l.1
    · rw [errorAt?_eq_none_iff.2 (grammatical_iff.1 hl), if_neg (by simpa using hl)]
    · rw [if_pos (by simpa using hl), List.map_cons, errorAt?, hcause l.1 hl]

theorem read_of_not_grammatical {source : String}
    (h : ∃ line ∈ lines source.toList, ¬ Grammatical line) {cause : List Char → Malformed}
    (hcause : ∀ line, ¬ Grammatical line → readLine line = .error (cause line)) :
    read source = .error ((((lines source.toList).zipIdx 1).filter fun l => ¬ Grammatical l.1).map
      fun l => .malformed l.2 (cause l.1)) := by
  have herrors := toList_errors_foldl_next ((lines source.toList).zipIdx 1) {}
  rw [filterMap_errorAt? hcause] at herrors
  have hsome : ¬ (((lines source.toList).zipIdx 1).foldl Reading.next {}).errors.isEmpty := by
    rw [Array.isEmpty_iff, errors_foldl_next]
    rintro ⟨-, hall⟩
    obtain ⟨line, hline, hbad⟩ := h
    rw [← List.zipIdx_map_fst 1 (lines source.toList)] at hline
    obtain ⟨l, hl, rfl⟩ := List.mem_map.1 hline
    exact hbad (grammatical_iff.2 (hall l hl))
  simp only [read, if_neg hsome]
  exact congrArg Except.error herrors

end Malformed

namespace Labels

def Knows (l : Labels) (name : String) : Prop := ∃ a, l.table.address? name = some a

theorem knows_next (l : Labels) (s : Numbered) (name : String) :
    (l.next s).Knows name ↔ l.Knows name ∨ s.statement = .label name := by
  obtain ⟨hs, hnext⟩ | ⟨label, hs, ⟨hknown, hnext⟩ | ⟨hfree, hnext⟩⟩ := next_cases l s
  · rw [hnext]
    refine (or_iff_left fun hlabel => ?_).symm
    rw [hlabel] at hs
    cases hs
  · rw [hnext, hs]
    refine (or_iff_left_of_imp ?_).symm
    rintro ⟨⟩
    exact hknown
  · rw [hnext, hs, Statement.label.injEq]
    by_cases heq : label = name
    · subst heq
      exact iff_of_true ⟨_, address?_insert_self _ hfree⟩ (.inr rfl)
    · unfold Knows
      rw [address?_insert_ne _ heq, or_iff_left heq]

theorem errors_next_known {l : Labels} {n : Nat} {name : String} (h : l.Knows name) :
    (l.next ⟨n, .label name⟩).errors.toList = l.errors.toList ++ [.duplicateLabel n name] := by
  obtain ⟨a, ha⟩ := h
  simp [next, ha]

theorem errors_next_new {l : Labels} {s : Numbered}
    (h : ∀ name, s.statement = .label name → ¬ l.Knows name) : (l.next s).errors = l.errors := by
  obtain ⟨-, hnext⟩ | ⟨name, hs, ⟨hknown, -⟩ | ⟨-, hnext⟩⟩ := next_cases l s
  · rw [hnext]
  · exact absurd hknown (h name hs)
  · rw [hnext]

end Labels

section Redeclared

theorem statementAt?_eq (line : List Char) (n : Nat) :
    statementAt? (line, n) = (statement? line).map (Numbered.mk n) := by
  unfold statementAt? statement?
  cases readLine line <;> rfl

theorem redeclares_cons {known : String → Prop} {line : List Char} {ls : List (List Char)}
    {first n : Nat} {name : String} :
    Redeclares known (line :: ls) first n name ↔
      (n = first ∧ Says line (.label name) ∧ known name) ∨
        Redeclares (fun other => known other ∨ Says line (.label other)) ls (first + 1) n name := by
  constructor
  · rintro ⟨before, said, after, hls, hn, hsaid, hknown⟩
    cases before with
    | nil =>
      cases hls
      exact .inl ⟨hn, hsaid, hknown.resolve_right (by simp)⟩
    | cons b before =>
      cases hls
      rw [List.length_cons] at hn
      rw [List.exists_mem_cons_iff, ← or_assoc] at hknown
      exact .inr ⟨before, said, after, rfl, by omega, hsaid, hknown⟩
  · rintro (⟨hn, hsaid, hknown⟩ | ⟨before, said, after, rfl, hn, hsaid, hknown⟩)
    · exact ⟨[], line, ls, rfl, hn, hsaid, .inl hknown⟩
    · refine ⟨line :: before, said, after, rfl, ?_, hsaid, ?_⟩
      · rw [List.length_cons]
        omega
      · rwa [List.exists_mem_cons_iff, ← or_assoc]

/-- The first pass reports the labels that are declared again, in the order of their lines. -/
theorem exists_redeclared (l : Labels) (ls : List (List Char)) (first : Nat) :
    ∃ found : List (Nat × String),
      (((ls.zipIdx first).filterMap statementAt?).foldl Labels.next l).errors.toList =
          l.errors.toList ++ found.map (fun d => .duplicateLabel d.1 d.2) ∧
        (found.map Prod.fst).Sublist (List.range' first ls.length) ∧
        ∀ n name, (n, name) ∈ found ↔ Redeclares l.Knows ls first n name := by
  induction ls generalizing l first with
  | nil =>
    refine ⟨[], by simp, by simp, fun n name => iff_of_false List.not_mem_nil ?_⟩
    rintro ⟨before, line, after, hls, -⟩
    simp at hls
  | cons line ls ih =>
    rw [List.zipIdx_cons, List.filterMap_cons, statementAt?_eq, List.length_cons, List.range'_succ]
    simp only [redeclares_cons]
    cases hline : statement? line with
    | none =>
      obtain ⟨found, herrors, hlines, hmem⟩ := ih l (first + 1)
      have hsilent (name : String) : ¬ Says line (.label name) := by
        simp [← statement?_eq_some_iff, hline]
      refine ⟨found, herrors, hlines.cons first, fun n name => ?_⟩
      simp only [hmem, hsilent, false_and, and_false, false_or, or_false]
    | some s =>
      obtain ⟨found, herrors, hlines, hmem⟩ := ih (l.next ⟨first, s⟩) (first + 1)
      have hsays (name : String) : Says line (.label name) ↔ s = .label name := by
        rw [← statement?_eq_some_iff, hline, Option.some.injEq]
      -- A label is known behind its line whether or not it was new there, so a report does not change
      -- what is said of later lines.
      have hknows : (l.next ⟨first, s⟩).Knows = fun name => l.Knows name ∨ Says line (.label name) := by
        funext name
        rw [Labels.knows_next, hsays]
      rw [hknows] at hmem
      by_cases hdup : ∃ name, s = .label name ∧ l.Knows name
      · obtain ⟨label, rfl, hknown⟩ := hdup
        refine ⟨(first, label) :: found, ?_, hlines.cons_cons first, fun n name => ?_⟩
        · rw [Option.map_some, List.foldl_cons, herrors, Labels.errors_next_known hknown]
          simp
        · rw [List.mem_cons, hmem, hsays, Prod.mk.injEq, Statement.label.injEq]
          refine or_congr_left (and_congr_right fun _ => ?_)
          constructor
          · rintro rfl
            exact ⟨rfl, hknown⟩
          · exact fun h => h.1.symm
      · have hnew : (l.next ⟨first, s⟩).errors = l.errors :=
          Labels.errors_next_new fun name hs hknown => hdup ⟨name, hs, hknown⟩
        refine ⟨found, ?_, hlines.cons first, fun n name => ?_⟩
        · rw [Option.map_some, List.foldl_cons, herrors, hnew]
        · rw [hmem, hsays]
          refine (or_iff_right ?_).symm
          rintro ⟨-, hs, hknown⟩
          exact hdup ⟨name, hs, hknown⟩

theorem knows_start (name : String) : ({} : Labels).Knows name ↔ name ∈ predefined.map Prod.fst := by
  rw [← not_iff_not, Labels.Knows, ← Option.isSome_iff_exists, Option.not_isSome_iff_eq_none,
    address?_empty, List.lookup_eq_none_iff]
  constructor
  · intro hnone hmem
    obtain ⟨entry, hentry, rfl⟩ := List.mem_map.1 hmem
    simpa using hnone entry hentry
  · intro hnot entry hentry
    simp only [bne_iff_ne]
    rintro rfl
    exact hnot (List.mem_map_of_mem hentry)

theorem codeSize_lines (ls : List (List Char)) (first : Nat) :
    codeSize (((ls.zipIdx first).filterMap statementAt?).map (·.statement)) =
      ls.countP fun line => SaysInstruction line := by
  induction ls generalizing first with
  | nil => rfl
  | cons line ls ih =>
    rw [List.zipIdx_cons, List.filterMap_cons, statementAt?_eq, List.countP_cons, ← ih (first + 1)]
    cases hline : statement? line with
    | none => simp [saysInstruction_iff, hline]
    | some s => simp [saysInstruction_iff, hline, codeSize_cons]

end Redeclared

/-- A source that is read is refused for what the first pass reports, or its program can be loaded. -/
theorem assemble_of_report {source : String} {items : List Numbered} (hread : read source = .ok items)
    {errors : List Error} (hreport : (items.foldl Labels.next {}).report = errors) :
    (errors ≠ [] → assemble source = .error errors) ∧
      (errors = [] → ∃ p, assemble source = .ok p ∧ ∀ m : Machine, ∃ u, m.load p.words = .ok u) := by
  have hlabels := bindLabels_eq items
  rw [hreport] at hlabels
  constructor
  · intro hsome
    rw [assemble_of_read hread, hlabels, if_neg (by rwa [List.isEmpty_iff])]
    rfl
  · intro hnone
    rw [if_pos (List.isEmpty_iff.2 hnone)] at hlabels
    have hassembles := assembles_encodeWith hlabels
    refine ⟨_, by rw [assemble_of_read hread, hlabels]; rfl, Machine.exists_load ?_⟩
    rw [hassembles.size]
    exact hassembles.fits

/-- If some lines are not in the grammar, the assembler reports each of them under its number, in order,
and nothing else. Otherwise it reports the lines that declare a predefined label or one that was declared
before, in order, and then the number of instructions if it is above 32768. It gives a program exactly if
it has nothing to report, and every machine can load that program. -/
theorem assemble_reports_exactly (source : String) :
    let ls := lines source.toList
    let count := ls.countP fun line => SaysInstruction line
    ((∃ line ∈ ls, ¬ Grammatical line) → ∃ cause : List Char → Malformed,
      assemble source = .error (((ls.zipIdx 1).filter fun l => ¬ Grammatical l.1).map
        fun l => .malformed l.2 (cause l.1))) ∧
    ((∀ line ∈ ls, Grammatical line) → ∃ duplicates : List (Nat × String),
      (duplicates.Pairwise fun d e => d.1 < e.1) ∧
      (∀ n name, (n, name) ∈ duplicates ↔
        Redeclares (fun known => known ∈ predefined.map Prod.fst) ls 1 n name) ∧
      let errors := duplicates.map (fun d => .duplicateLabel d.1 d.2) ++
        if 32768 < count then [.tooLarge count] else []
      (errors ≠ [] → assemble source = .error errors) ∧
      (errors = [] → ∃ p, assemble source = .ok p ∧ ∀ m : Machine, ∃ u, m.load p.words = .ok u)) := by
  intro ls count
  constructor
  · intro hbad
    choose cause hcause using exists_cause
    refine ⟨cause, ?_⟩
    rw [assemble, read_of_not_grammatical hbad hcause]
    rfl
  · intro hgood
    obtain ⟨duplicates, herrors, hlines, hmem⟩ := exists_redeclared {} ls 1
    have hread : read source = .ok ((ls.zipIdx 1).filterMap statementAt?) :=
      read_eq_ok_iff.2 ⟨fun line hline => grammatical_iff.1 (hgood line hline), rfl⟩
    have hcount : (((ls.zipIdx 1).filterMap statementAt?).foldl Labels.next {}).address = count := by
      rw [Labels.address_run, Nat.zero_add]
      exact codeSize_lines ls 1
    have hknown : ({} : Labels).Knows = fun name => name ∈ predefined.map Prod.fst :=
      funext fun name => propext (knows_start name)
    refine ⟨duplicates, ?_, fun n name => by rw [hmem, hknown], assemble_of_report hread ?_⟩
    · exact List.pairwise_map.1 (List.Pairwise.sublist hlines List.pairwise_lt_range')
    · rw [Labels.report, herrors, hcount]
      rfl

end Assembly

end HackStack
