import HackStack.Proofs.Grammar

set_option autoImplicit false

namespace HackStack.Command

open Text

section Lines

variable (file : String)

def outcomes (scope : Option String) : List (List Char) → List (Except Malformed (Option Command))
  | [] => []
  | line :: ls =>
    let r := readLine scope line
    r :: outcomes (scopeAfter scope r.toOption.join) ls

def scopeBehind (scope : Option String) (ls : List (List Char)) : Option String :=
  ls.foldl (fun s line => scopeAfter s (readLine s line).toOption.join) scope

def commandAt? : Except Malformed (Option Command) × Nat → Option Located
  | (.ok (some c), n) => some ⟨c, file, n⟩
  | _ => none

def errorAt? : Except Malformed (Option Command) × Nat → Option SourceError
  | (.error cause, n) => some (cause.toError ⟨file, n⟩)
  | _ => none

theorem next_spec (r : Reading) (line : List Char) (n : Nat) :
    let o := readLine r.scope line
    (r.next file (line, n)).scope = scopeAfter r.scope o.toOption.join ∧
      (r.next file (line, n)).commands.toList =
        r.commands.toList ++ (commandAt? file (o, n)).toList ∧
      (r.next file (line, n)).errors.toList = r.errors.toList ++ (errorAt? file (o, n)).toList := by
  unfold Reading.next
  cases readLine r.scope line with
  | error cause => exact ⟨rfl, by simp [commandAt?], by simp [errorAt?]⟩
  | ok read =>
    cases read with
    | none => exact ⟨rfl, by simp [commandAt?], by simp [errorAt?]⟩
    | some c => exact ⟨rfl, by simp [commandAt?], by simp [errorAt?]⟩

theorem foldl_next (ls : List (List Char)) (n : Nat) (r : Reading) :
    let out := (ls.zipIdx n).foldl (Reading.next file) r
    let os := (outcomes r.scope ls).zipIdx n
    out.commands.toList = r.commands.toList ++ os.filterMap (commandAt? file) ∧
      out.errors.toList = r.errors.toList ++ os.filterMap (errorAt? file) := by
  induction ls generalizing n r with
  | nil => simp [outcomes]
  | cons line ls ih =>
    obtain ⟨hscope, hcommands, herrors⟩ := next_spec file r line n
    have htail := ih (n + 1) (r.next file (line, n))
    rw [hscope, hcommands, herrors] at htail
    have hcons {β : Type} (f : Except Malformed (Option Command) × Nat → Option β) :
        ((outcomes r.scope (line :: ls)).zipIdx n).filterMap f =
          (f (readLine r.scope line, n)).toList ++ ((outcomes (scopeAfter r.scope
            (readLine r.scope line).toOption.join) ls).zipIdx (n + 1)).filterMap f := by
      simp only [outcomes, List.zipIdx_cons, List.filterMap_cons]
      cases f (readLine r.scope line, n) <;> rfl
    simpa only [List.zipIdx_cons, List.foldl_cons, hcons, List.append_assoc] using htail

theorem errorAt?_eq_none {p : Except Malformed (Option Command) × Nat} :
    errorAt? file p = none ↔ ∃ r, p.1 = .ok r := by
  obtain ⟨o, n⟩ := p
  cases o with
  | error cause => simp [errorAt?]
  | ok r => simp [errorAt?]

theorem filterMap_errorAt? (os : List (Except Malformed (Option Command))) (n : Nat) :
    (os.zipIdx n).filterMap (errorAt? file) = [] ↔ ∀ o ∈ os, ∃ r, o = .ok r := by
  have hfst := List.forall_mem_map (f := Prod.fst) (l := os.zipIdx n) (P := fun o => ∃ r, o = .ok r)
  rw [List.zipIdx_map_fst] at hfst
  rw [List.filterMap_eq_nil_iff, hfst]
  simp only [errorAt?_eq_none]

theorem read_eq_ok_iff {source : String} {commands : List Located} :
    read file source = .ok commands ↔
      (∀ o ∈ outcomes none (lines source.toList), ∃ r, o = .ok r) ∧
        commands = ((outcomes none (lines source.toList)).zipIdx 1).filterMap (commandAt? file) := by
  obtain ⟨hcommands, herrors⟩ := foldl_next file (lines source.toList) 1 {}
  have hread : (readSource file source).commands.toList =
      ((outcomes none (lines source.toList)).zipIdx 1).filterMap (commandAt? file) := hcommands
  have hempty : (readSource file source).errors.isEmpty ↔
      ∀ o ∈ outcomes none (lines source.toList), ∃ r, o = .ok r := by
    rw [← filterMap_errorAt? file _ 1, Array.isEmpty_iff, ← Array.toList_eq_nil_iff]
    exact Eq.congr_left herrors
  simp only [read]
  split
  next h => rw [hread, Except.ok.injEq, eq_comm, and_iff_right (hempty.1 h)]
  next h => simp [← hempty, h]

theorem getElem?_outcomes (scope : Option String) (ls : List (List Char)) (i : Nat) :
    (outcomes scope ls)[i]? = ls[i]?.map (readLine (scopeBehind scope (ls.take i))) := by
  induction ls generalizing scope i with
  | nil => simp [outcomes]
  | cons line ls ih =>
    cases i with
    | zero => rfl
    | succ i => exact ih _ i

theorem outcomes_take (scope : Option String) (ls : List (List Char)) (i : Nat) :
    outcomes scope (ls.take i) = (outcomes scope ls).take i := by
  induction ls generalizing scope i with
  | nil => simp [outcomes]
  | cons line ls ih =>
    cases i with
    | zero => rfl
    | succ i => exact congrArg _ (ih _ i)

theorem commandAt?_eq_some {o : Except Malformed (Option Command)} {n : Nat} {x : Located} :
    commandAt? file (o, n) = some x ↔ ∃ c, o = .ok (some c) ∧ x = ⟨c, file, n⟩ := by
  cases o with
  | error cause => simp [commandAt?]
  | ok r =>
    cases r with
    | none => simp [commandAt?]
    | some c => simp [commandAt?, eq_comm]

variable {file} {source : String} {commands : List Located}

/-- Each command stands on its line, read inside the function that the lines before it declare. -/
theorem mem_read_iff (h : read file source = .ok commands) {i : Nat} {c : Command} :
    ⟨c, file, i + 1⟩ ∈ commands ↔ ∃ line, (lines source.toList)[i]? = some line ∧
      readLine (scopeBehind none ((lines source.toList).take i)) line = .ok (some c) := by
  rw [((read_eq_ok_iff file).1 h).2, List.mem_filterMap]
  simp only [Prod.exists, List.mk_mem_zipIdx_iff_le_and_getElem?_sub, commandAt?_eq_some,
    getElem?_outcomes]
  constructor
  · rintro ⟨o, n, ⟨-, ho⟩, d, rfl, hd⟩
    cases hd
    exact Option.map_eq_some_iff.1 ho
  · rintro ⟨line, hline, hread⟩
    refine ⟨.ok (some c), i + 1, ⟨Nat.le_add_left 1 i, ?_⟩, c, rfl, rfl⟩
    rw [Nat.add_sub_cancel, hline, Option.map_some, hread]

end Lines

def declared? (line : List Char) : Option String :=
  match words (beforeComment line) with
  | [keyword, name, _] => if keyword = "function".toList then some (String.ofList name) else none
  | _ => none

/-- The function around a line: the last one declared before it, if there is one. -/
def enclosing (ls : List (List Char)) (i : Nat) : Option String :=
  ((ls.take i).filterMap declared?).getLast?

theorem scopeAfter_eq {scope : Option String} {line : List Char} {r : Option Command}
    (h : readLine scope line = .ok r) : scopeAfter scope r = (declared? line).or scope := by
  cases r with
  | none =>
    rw [declared?, readLine_none_iff.1 h]
    rfl
  | some c =>
    obtain ⟨operands, hwords, hoperands⟩ := readLine_some_iff.1 h
    rw [declared?, hwords]
    cases c with
    | push segment index | pop segment index | function name count | call name count =>
      obtain ⟨number, rfl, -⟩ := hoperands
      simp [scopeAfter, keyword]
    | label name | goto name | ifGoto name =>
      obtain ⟨word, rfl, -⟩ := hoperands
      rfl
    | operate op | ret =>
      cases hoperands
      rfl

theorem getLast?_filterMap_cons {α β : Type} (f : α → Option β) (x : α) (xs : List α) :
    ((x :: xs).filterMap f).getLast? = ((xs.filterMap f).getLast?).or (f x) := by
  rw [List.filterMap_cons]
  cases f x with
  | none => simp
  | some y => simp [List.getLast?_cons]

theorem scopeBehind_eq {scope : Option String} {ls : List (List Char)}
    (h : ∀ o ∈ outcomes scope ls, ∃ r, o = .ok r) :
    scopeBehind scope ls = ((ls.filterMap declared?).getLast?).or scope := by
  induction ls generalizing scope with
  | nil => rfl
  | cons line ls ih =>
    obtain ⟨⟨r, hr⟩, htail⟩ := List.forall_mem_cons.1 h
    have hnext : scopeAfter scope (readLine scope line).toOption.join =
        (declared? line).or scope := by
      rw [hr]
      exact scopeAfter_eq hr
    rw [hnext] at htail
    change scopeBehind (scopeAfter scope (readLine scope line).toOption.join) ls = _
    rw [hnext, ih htail, getLast?_filterMap_cons, Option.or_assoc]

theorem scopeBehind_take {file source : String} {commands : List Located}
    (h : read file source = .ok commands) (i : Nat) :
    scopeBehind none ((lines source.toList).take i) = enclosing (lines source.toList) i := by
  have hall := ((read_eq_ok_iff file).1 h).1
  rw [scopeBehind_eq, Option.or_none, enclosing]
  rw [outcomes_take]
  exact fun o ho => hall o (List.mem_of_mem_take ho)

/-- A label of a function is spelled like a label of another one, whose name goes on where that of the
first one ends. -/
def Intrudes (scope : Option String) (name : String) (other : Option String) (name' : String) : Prop :=
  ∃ rest, other = some (qualify scope rest) ∧ name = rest ++ "$" ++ name'

theorem qualify_qualify (scope : Option String) (rest name : String) :
    qualify (some (qualify scope rest)) name = qualify scope (rest ++ "$" ++ name) := by
  cases scope with
  | none => rfl
  | some f => simp [qualify, String.append_assoc]

theorem Intrudes.qualify_eq {scope other : Option String} {name name' : String}
    (h : Intrudes scope name other name') : qualify scope name = qualify other name' := by
  obtain ⟨rest, rfl, rfl⟩ := h
  exact (qualify_qualify scope rest name').symm

theorem eq_or_intrudes {f g x y : String} {more : List Char} (hg : g.toList = f.toList ++ more)
    (hx : '$' :: x.toList = more ++ '$' :: y.toList) :
    (some f = some g ∧ x = y) ∨ Intrudes (some f) x (some g) y := by
  cases more with
  | nil =>
    rw [List.append_nil] at hg
    exact .inl ⟨congrArg some (String.toList_inj.1 hg.symm), String.toList_inj.1 (List.cons.inj hx).2⟩
  | cons c rest =>
    rw [List.cons_append] at hx
    obtain ⟨rfl, hrest⟩ := List.cons.inj hx
    refine .inr ⟨String.ofList rest, congrArg some (String.toList_inj.1 ?_), String.toList_inj.1 ?_⟩
    · simp [qualify, hg]
    · simpa using hrest

/-- Two labels are known by one name exactly if they are the same label of one function, or one of
them intrudes on the other. -/
theorem qualify_eq_iff {scope other : Option String} {name name' : String} :
    qualify scope name = qualify other name' ↔
      (scope = other ∧ name = name') ∨ Intrudes scope name other name' ∨
        Intrudes other name' scope name := by
  constructor
  · intro h
    cases scope with
    | none =>
      cases other with
      | none => exact .inl ⟨rfl, h⟩
      | some g => exact .inr (.inl ⟨g, rfl, h⟩)
    | some f =>
      cases other with
      | none => exact .inr (.inr ⟨f, rfl, h.symm⟩)
      | some g =>
        have hlist : f.toList ++ '$' :: name.toList = g.toList ++ '$' :: name'.toList := by
          simpa [qualify] using congrArg String.toList h
        obtain ⟨more, hg, hx⟩ | ⟨more, hf, hy⟩ := List.append_eq_append_iff.1 hlist
        · exact (eq_or_intrudes hg hx).imp_right .inl
        · obtain ⟨hsame, hname⟩ | hintrudes := eq_or_intrudes hf hy
          · exact .inl ⟨hsame.symm, hname.symm⟩
          · exact .inr (.inr hintrudes)
  · rintro (⟨rfl, rfl⟩ | h | h)
    · rfl
    · exact h.qualify_eq
    · exact h.qualify_eq.symm

def IsLabelLine (ls : List (List Char)) (i : Nat) (name : String) : Prop :=
  ∃ line, ls[i]? = some line ∧ words (beforeComment line) = ["label".toList, name.toList]

theorem eq_label_of_denotes {scope : Option String} {name : String} {c : Command}
    (h : Denotes scope ["label".toList, name.toList] c) : c = .label (qualify scope name) := by
  obtain ⟨hkeyword, hoperands⟩ := denotes_cons.1 h
  cases c with
  | label known =>
    obtain ⟨word, hword, -, rfl⟩ := hoperands
    cases hword
    rw [qualify_eq, String.ofList_toList]
  | operate op => cases op <;> exact absurd hkeyword (by decide)
  | _ => simp [keyword] at hkeyword

theorem mem_read_label {file source : String} {commands : List Located}
    (h : read file source = .ok commands) {i : Nat} {name : String}
    (hi : IsLabelLine (lines source.toList) i name) (c : Command) :
    ⟨c, file, i + 1⟩ ∈ commands ↔
      c = .label (qualify (enclosing (lines source.toList) i) name) := by
  obtain ⟨line, hline, hwords⟩ := hi
  have hmem := getElem?_outcomes none (lines source.toList) i
  rw [hline, Option.map_some, scopeBehind_take h] at hmem
  obtain ⟨r, hr⟩ := ((read_eq_ok_iff file).1 h).1 _ (List.mem_of_getElem? hmem)
  rw [mem_read_iff h, scopeBehind_take h]
  simp only [hline, Option.some.injEq, exists_eq_left', hr, Except.ok.injEq]
  cases r with
  | none =>
    have hnil := readLine_none_iff.1 hr
    rw [hwords] at hnil
    cases hnil
  | some d =>
    have hd := readLine_some_iff.1 hr
    rw [hwords] at hd
    rw [eq_label_of_denotes hd, Option.some.injEq, eq_comm]

theorem Intrudes.dollar_mem {scope other : Option String} {name name' : String}
    (h : Intrudes scope name other name') : '$' ∈ name.toList := by
  obtain ⟨rest, -, rfl⟩ := h
  simp

/-- Of two label lines in a file that is read, the labels carry one name exactly if they are spelled
alike inside functions of one name, or if one intrudes on the other. The latter takes a dollar sign in
the spelling of a label. -/
theorem label_names_eq_iff {file source : String} {commands : List Located}
    (h : read file source = .ok commands) {i j : Nat} {name name' : String}
    (hi : IsLabelLine (lines source.toList) i name)
    (hj : IsLabelLine (lines source.toList) j name') :
    ∃ known known', (∀ c, ⟨c, file, i + 1⟩ ∈ commands ↔ c = .label known) ∧
      (∀ c, ⟨c, file, j + 1⟩ ∈ commands ↔ c = .label known') ∧
      (known = known' ↔
        (enclosing (lines source.toList) i = enclosing (lines source.toList) j ∧ name = name') ∨
          Intrudes (enclosing (lines source.toList) i) name
            (enclosing (lines source.toList) j) name' ∨
          Intrudes (enclosing (lines source.toList) j) name'
            (enclosing (lines source.toList) i) name) ∧
      ('$' ∉ name.toList → '$' ∉ name'.toList → known = known' →
        enclosing (lines source.toList) i = enclosing (lines source.toList) j ∧ name = name') := by
  refine ⟨_, _, mem_read_label h hi, mem_read_label h hj, qualify_eq_iff, ?_⟩
  intro hname hname' heq
  obtain hsame | hintrudes | hintrudes := qualify_eq_iff.1 heq
  · exact hsame
  · exact absurd hintrudes.dollar_mem hname
  · exact absurd hintrudes.dollar_mem hname'

section Sample

def intrudingSource : String := "function A 0\nlabel B$C\nfunction A$B 0\nlabel C\n"

theorem label_names_intruding : ∃ commands, read "Main.vm" intrudingSource = .ok commands ∧
    enclosing (lines intrudingSource.toList) 1 = some "A" ∧
    enclosing (lines intrudingSource.toList) 3 = some "A$B" ∧
    ∃ known, ⟨.label known, "Main.vm", 2⟩ ∈ commands ∧ ⟨.label known, "Main.vm", 4⟩ ∈ commands := by
  have hread : read "Main.vm" intrudingSource =
      .ok [⟨.function "A" 0, "Main.vm", 1⟩, ⟨.label "A$B$C", "Main.vm", 2⟩,
        ⟨.function "A$B" 0, "Main.vm", 3⟩, ⟨.label "A$B$C", "Main.vm", 4⟩] := rfl
  have hfirst : IsLabelLine (lines intrudingSource.toList) 1 "B$C" := ⟨_, rfl, rfl⟩
  have hsecond : IsLabelLine (lines intrudingSource.toList) 3 "C" := ⟨_, rfl, rfl⟩
  have hA : enclosing (lines intrudingSource.toList) 1 = some "A" := rfl
  have hB : enclosing (lines intrudingSource.toList) 3 = some "A$B" := rfl
  refine ⟨_, hread, hA, hB, ?_⟩
  obtain ⟨known, known', hmem, hmem', hiff, -⟩ := label_names_eq_iff hread hfirst hsecond
  have hsame : known = known' := by
    rw [hiff, hA, hB]
    exact .inr (.inl ⟨"B", rfl, rfl⟩)
  exact ⟨known, (hmem _).2 rfl, hsame ▸ (hmem' _).2 rfl⟩

end Sample

end HackStack.Command
