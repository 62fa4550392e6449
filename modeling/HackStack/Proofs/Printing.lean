import HackStack.Proofs.Rendering
import HackStack.Proofs.Scopes

set_option autoImplicit false

namespace HackStack

namespace Text

theorem mem_intercalate {sep x : Char} {ls : List (List Char)} (h : x ∈ [sep].intercalate ls) :
    x = sep ∨ ∃ l ∈ ls, x ∈ l := by
  induction ls with
  | nil => cases h
  | cons l ls ih =>
    cases ls with
    | nil =>
      rw [List.intercalate_singleton] at h
      exact .inr ⟨l, List.mem_cons_self, h⟩
    | cons k ls =>
      rw [List.intercalate_cons_cons, List.append_assoc, List.mem_append, List.singleton_append,
        List.mem_cons] at h
      obtain h | rfl | h := h
      · exact .inr ⟨l, List.mem_cons_self, h⟩
      · exact .inl rfl
      · exact (ih h).imp_right fun ⟨m, hm, hx⟩ => ⟨m, List.mem_cons_of_mem _ hm, hx⟩

theorem splitAt_intercalate {sep : Char} {l : List Char} {ls : List (List Char)}
    (h : ∀ k ∈ l :: ls, sep ∉ k) : splitAt sep ([sep].intercalate (l :: ls)) = l :: ls := by
  induction ls generalizing l with
  | nil =>
    rw [List.intercalate_singleton]
    exact splitAt_of_not_mem (h l List.mem_cons_self)
  | cons k ls ih =>
    obtain ⟨hl, hls⟩ := List.forall_mem_cons.1 h
    rw [List.intercalate_cons_cons, List.append_assoc, List.singleton_append, splitAt_append,
      splitAt_of_not_mem hl, ih hls]
    rfl

/-- A line that the reader sees as it was written. -/
structure IsLine (line : List Char) : Prop where
  nonempty : line ≠ []
  lineFeed : '\n' ∉ line
  carriageReturn : '\r' ∉ line

theorem IsLine.dropReturn {line : List Char} (h : IsLine line) : dropReturn line = line :=
  if_neg fun hlast => h.carriageReturn (List.mem_of_getLast? hlast)

/-- Lines that end in a line feed each, and lines with line feeds between them only. -/
theorem lines_of_isLine {ls : List (List Char)} (h : ∀ l ∈ ls, IsLine l) :
    lines (ls.flatMap (· ++ ['\n'])) = ls ∧ lines (['\n'].intercalate ls) = ls := by
  have hreturn {ks : List (List Char)} (hks : ∀ k ∈ ks, IsLine k) : ks.map Text.dropReturn = ks :=
    (List.map_congr_left fun k hk => (hks k hk).dropReturn).trans (List.map_id ks)
  constructor
  · rw [lines_ended ls fun l hl => (h l hl).lineFeed, hreturn h]
  · cases ls with
    | nil => rfl
    | cons l ls =>
      have hne : l :: ls ≠ [] := List.cons_ne_nil l ls
      have hlast : ((l :: ls).getLast hne).isEmpty = false :=
        List.isEmpty_eq_false_iff.2 (h _ (List.getLast_mem hne)).nonempty
      rw [lines, splitAt_intercalate fun k hk => (h k hk).lineFeed, List.getLast?_eq_some_getLast hne,
        hreturn fun k hk => h k ((List.dropLast_sublist _).subset hk)]
      simp only [Option.getD_some, hlast, Bool.false_eq_true, if_false]
      exact List.dropLast_append_getLast hne

theorem lines_of_texts {texts : List String} (h : ∀ t ∈ texts, IsLine t.toList) {source : String}
    (hsource : source = String.join (texts.map (· ++ "\n")) ∨ source = "\n".intercalate texts) :
    lines source.toList = texts.map String.toList := by
  obtain ⟨hended, hbetween⟩ := lines_of_isLine (List.forall_mem_map.2 h)
  obtain rfl | rfl := hsource
  · rw [String.toList_join, List.flatMap_map]
    rw [List.flatMap_map] at hended
    simpa using hended
  · rw [String.toList_intercalate]
    exact hbetween

end Text

open Text

namespace Command

/-- A command as it is known outside the function around it. -/
def within (scope : Option String) : Command → Command
  | .label name => .label (qualify scope name)
  | .goto name => .goto (qualify scope name)
  | .ifGoto name => .ifGoto (qualify scope name)
  | c => c

def functionName? : Command → Option String
  | .function name _ => some name
  | _ => none

def lastFunction (cs : List Command) : Option String := (cs.filterMap functionName?).getLast?

def allWithin (scope : Option String) : List Command → List Command
  | [] => []
  | c :: cs => c.within scope :: allWithin (c.functionName?.or scope) cs

def printedWords (c : Command) : List (List Char) :=
  c.keyword.toList :: match c with
    | .push segment index | .pop segment index => [segment.text.toList, Decimal.digits index.toNat]
    | .label name | .goto name | .ifGoto name => [name.toList]
    | .function name count | .call name count => [name.toList, Decimal.digits count.toNat]
    | .operate _ | .ret => []

theorem text_toList (c : Command) : c.text.toList = [' '].intercalate c.printedWords := by
  cases c <;> simp [text, operandText, printedWords, Decimal.text, List.intercalate_cons_cons]

theorem keyword_plain (c : Command) :
    c.keyword.toList ≠ [] ∧ ∀ x ∈ c.keyword.toList, isPlain x := by
  cases c with
  | operate op => cases op <;> exact ⟨by decide, List.all_eq_true.1 (by decide)⟩
  | _ =>
    simp only [keyword]
    exact ⟨by decide, List.all_eq_true.1 (by decide)⟩

theorem segment_plain (s : Segment) : s.text.toList ≠ [] ∧ ∀ x ∈ s.text.toList, isPlain x := by
  cases s <;> exact ⟨by decide, List.all_eq_true.1 (by decide)⟩

theorem symbol_plain {name : List Char} (h : isSymbol name) : name ≠ [] ∧ ∀ x ∈ name, isPlain x :=
  ⟨fun hnil => by simp [hnil, isSymbol] at h, isPlain_symbol h⟩

theorem digits_ne_nil (n : Nat) : Decimal.digits n ≠ [] := by
  intro h
  have hvalue := Decimal.value?_digits n
  rw [h] at hvalue
  cases hvalue

theorem printedWords_plain {c : Command} (h : c.WellFormed) :
    ∀ w ∈ c.printedWords, w ≠ [] ∧ ∀ x ∈ w, isPlain x := by
  refine List.forall_mem_cons.2 ⟨keyword_plain c, ?_⟩
  have hdigits (n : Nat) : Decimal.digits n ≠ [] ∧ ∀ x ∈ Decimal.digits n, isPlain x :=
    ⟨digits_ne_nil n, isPlain_digits n⟩
  cases c with
  | push segment index | pop segment index =>
    exact List.forall_mem_cons.2 ⟨segment_plain segment, List.forall_mem_singleton.2 (hdigits _)⟩
  | label name | goto name | ifGoto name => exact List.forall_mem_singleton.2 (symbol_plain h)
  | function name count | call name count =>
    exact List.forall_mem_cons.2 ⟨symbol_plain h.1, List.forall_mem_singleton.2 (hdigits _)⟩
  | operate op | ret => exact List.forall_mem_nil _

theorem text_chars {c : Command} (h : c.WellFormed) : ∀ x ∈ c.text.toList, x = ' ' ∨ isPlain x := by
  intro x hx
  rw [text_toList] at hx
  exact (mem_intercalate hx).imp_right fun ⟨w, hw, hxw⟩ => (printedWords_plain h w hw).2 x hxw

theorem text_isLine {c : Command} (h : c.WellFormed) : IsLine c.text.toList where
  nonempty := by
    have hkeyword := (keyword_plain c).1
    rw [text, String.toList_append]
    exact fun hnil => hkeyword (List.append_eq_nil_iff.1 hnil).1
  lineFeed hmem := absurd (text_chars h _ hmem) (by decide)
  carriageReturn hmem := absurd (text_chars h _ hmem) (by decide)

theorem words_text {c : Command} (h : c.WellFormed) :
    words (beforeComment c.text.toList) = c.printedWords := by
  rw [beforeComment_eq_self fun hmem => absurd (text_chars h _ hmem) (by decide), text_toList]
  refine words_intercalate fun w hw => ?_
  obtain ⟨hne, hplain⟩ := printedWords_plain h w hw
  refine ⟨hne, fun x hx => ?_⟩
  have hx' := hplain x hx
  simp only [isPlain, Bool.and_eq_true, Bool.not_eq_true'] at hx'
  exact hx'.1

theorem isNumber_digits (n : Nat) : IsNumber (Decimal.digits n) n := by
  refine ⟨_, .inl rfl, digits_ne_nil n, fun x hx => Decimal.isDigit_of_mem_digits hx, ?_⟩
  rw [← Decimal.value_eq_ofDigits, Decimal.value_digits]

theorem denotes_printedWords {c : Command} (h : c.WellFormed) (scope : Option String) :
    Denotes scope c.printedWords (c.within scope) := by
  refine ⟨c.printedWords.tail, ?_, ?_⟩
  · cases c <;> rfl
  · cases c with
    | push segment index => exact ⟨_, rfl, isNumber_digits _, admits_iff.1 h⟩
    | pop segment index => exact ⟨_, rfl, isNumber_digits _, admits_iff.1 h.2, h.1⟩
    | label name | goto name | ifGoto name =>
      refine ⟨name.toList, rfl, h, ?_⟩
      rw [qualify_eq, String.ofList_toList]
    | function name count | call name count => exact ⟨_, rfl, h.1, isNumber_digits _, h.2⟩
    | operate op | ret => rfl

/-- The text of a command is read as the command. -/
theorem readLine_text {c : Command} (h : c.WellFormed) (scope : Option String) :
    readLine scope c.text.toList = .ok (some (c.within scope)) := by
  rw [readLine_some_iff, words_text h]
  exact denotes_printedWords h scope

theorem scopeAfter_within (scope : Option String) (c : Command) :
    scopeAfter scope (some (c.within scope)) = c.functionName?.or scope := by
  cases c <;> rfl

theorem outcomes_text {cs : List Command} (h : ∀ c ∈ cs, c.WellFormed) (scope : Option String) :
    outcomes scope (cs.map (·.text.toList)) = (allWithin scope cs).map fun c => .ok (some c) := by
  induction cs generalizing scope with
  | nil => rfl
  | cons c cs ih =>
    obtain ⟨hc, hcs⟩ := List.forall_mem_cons.1 h
    rw [List.map_cons, outcomes, readLine_text hc, allWithin, List.map_cons, ← ih hcs,
      ← scopeAfter_within]
    rfl

theorem getElem?_allWithin (scope : Option String) (cs : List Command) (i : Nat) :
    (allWithin scope cs)[i]? = cs[i]?.map (within ((lastFunction (cs.take i)).or scope)) := by
  induction cs generalizing scope i with
  | nil => rfl
  | cons c cs ih =>
    cases i with
    | zero => rfl
    | succ i =>
      have hlast : lastFunction ((c :: cs).take (i + 1)) =
          (lastFunction (cs.take i)).or c.functionName? := getLast?_filterMap_cons _ c _
      rw [allWithin, List.getElem?_cons_succ, List.getElem?_cons_succ, ih, hlast, Option.or_assoc]

theorem length_allWithin (scope : Option String) (cs : List Command) :
    (allWithin scope cs).length = cs.length := by
  induction cs generalizing scope with
  | nil => rfl
  | cons c cs ih => exact congrArg (· + 1) (ih _)

theorem getElem?_sequence (file : String) (cs : List Command) (i : Nat) :
    (Located.sequence file cs)[i]? = cs[i]?.map fun c => ⟨c, file, i + 1⟩ := by
  rw [Located.sequence, List.getElem?_map, List.getElem?_zipIdx, Option.map_map, Nat.add_comm]
  rfl

theorem read_of_lines {file source : String} {cs : List Command} (h : ∀ c ∈ cs, c.WellFormed)
    (hlines : lines source.toList = cs.map (·.text.toList)) :
    read file source = .ok (Located.sequence file (allWithin none cs)) := by
  rw [read_eq_ok_iff, hlines, outcomes_text h]
  constructor
  · intro o ho
    obtain ⟨c, -, rfl⟩ := List.mem_map.1 ho
    exact ⟨some c, rfl⟩
  · rw [List.zipIdx_map, List.filterMap_map, Located.sequence, ← List.filterMap_eq_map]
    rfl

/-- Well formed commands, printed one on a line with or without an end of the last line, are read back
one by one. Labels and jumps come back with the name of the last function before them. -/
theorem read_printed_commands (file : String) {cs : List Command} (h : ∀ c ∈ cs, c.WellFormed)
    {source : String} (hsource : source = String.join (cs.map fun c => c.text ++ "\n") ∨
      source = "\n".intercalate (cs.map text)) :
    ∃ back : List Located, read file source = .ok back ∧ back.length = cs.length ∧
      ∀ (i : Nat) (c : Command), cs[i]? = some c →
        back[i]? = some ⟨c.within (lastFunction (cs.take i)), file, i + 1⟩ := by
  have hisLine : ∀ t ∈ cs.map text, IsLine t.toList :=
    List.forall_mem_map.2 fun c hc => text_isLine (h c hc)
  have hlines : lines source.toList = cs.map (·.text.toList) := by
    rw [lines_of_texts hisLine (by rwa [List.map_map]), List.map_map]
    rfl
  refine ⟨_, read_of_lines h hlines, ?_, fun i c hc => ?_⟩
  · rw [Located.sequence, List.length_map, List.length_zipIdx, length_allWithin]
  · rw [getElem?_sequence, getElem?_allWithin, hc, Option.or_none]
    rfl

section Sample

def labelTwice : List Command := [.label "L", .function "F" 2, .label "L", .pop .temp 7, .ifGoto "L"]

theorem labelTwice_wellFormed : ∀ c ∈ labelTwice, c.WellFormed := by
  decide

theorem read_printed_labelTwice : ∃ back : List Located,
    read "Main.vm" "label L\nfunction F 2\nlabel L\npop temp 7\nif-goto L" = .ok back ∧
      back.length = 5 ∧ back[0]? = some ⟨.label "L", "Main.vm", 1⟩ ∧
      back[2]? = some ⟨.label "F$L", "Main.vm", 3⟩ ∧ back[3]? = some ⟨.pop .temp 7, "Main.vm", 4⟩ := by
  obtain ⟨back, hread, hlength, hback⟩ :=
    read_printed_commands "Main.vm" labelTwice_wellFormed (.inr rfl)
  exact ⟨back, hread, hlength, hback 0 _ rfl, hback 2 _ rfl, hback 3 _ rfl⟩

end Sample

end Command

end HackStack
