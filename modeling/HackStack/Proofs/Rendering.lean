import HackStack.Proofs.Assembling
import HackStack.Proofs.Reading
import Mathlib.Data.Bool.AllAny

set_option autoImplicit false

namespace HackStack

namespace Text

/-- A character that the reader keeps: no white space, and no part of the start of a comment. -/
def isPlain (c : Char) : Bool := !isBlank c && c != '/'

theorem splitAt_append (sep : Char) (xs ys : List Char) :
    splitAt sep (xs ++ sep :: ys) = splitAt sep xs ++ splitAt sep ys := by
  induction xs with
  | nil => simp [splitAt, pieces]
  | cons c xs ih =>
    simp only [splitAt, pieces, List.cons_append, List.foldr_cons, List.cons.injEq] at ih ⊢
    split <;> simp_all

theorem splitAt_of_not_mem {sep : Char} {line : List Char} (h : sep ∉ line) :
    splitAt sep line = [line] := by
  have hpieces : pieces sep line = (line, []) := by
    induction line with
    | nil => rfl
    | cons c line ih =>
      obtain ⟨hc, hline⟩ := List.ne_and_not_mem_of_not_mem_cons h
      rw [pieces, List.foldr_cons, if_neg (Ne.symm hc)]
      change (c :: (pieces sep line).1, (pieces sep line).2) = _
      rw [ih hline]
  rw [splitAt, hpieces]

theorem lines_append (xs ys : List Char) :
    lines (xs ++ '\n' :: ys) = (splitAt '\n' xs).map dropReturn ++ lines ys := by
  have hne : splitAt '\n' ys ≠ [] := List.cons_ne_nil _ _
  simp only [lines, splitAt_append, List.getLast?_append_of_ne_nil _ hne,
    List.dropLast_append_of_ne_nil hne, List.map_append, List.append_assoc]

theorem lines_ended (ls : List (List Char)) (h : ∀ l ∈ ls, '\n' ∉ l) :
    lines (ls.flatMap (· ++ ['\n'])) = ls.map dropReturn := by
  induction ls with
  | nil => rfl
  | cons l ls ih =>
    obtain ⟨hl, hls⟩ := List.forall_mem_cons.1 h
    rw [List.flatMap_cons, List.append_assoc, List.singleton_append, lines_append,
      splitAt_of_not_mem hl, ih hls]
    rfl

theorem beforeCommentFrom_of_not_mem {line : List Char} (h : '/' ∉ line) (kept : List Char) :
    beforeCommentFrom kept line = kept.reverse ++ line := by
  induction line generalizing kept with
  | nil => simp [beforeCommentFrom]
  | cons c line ih =>
    obtain ⟨hne, hline⟩ := List.ne_and_not_mem_of_not_mem_cons h
    unfold beforeCommentFrom
    split
    · simp_all
    next heq =>
      cases heq
      rw [ih hline]
      simp
    next heq => cases heq

theorem beforeCommentFrom_plain {line : List Char} (h : ∀ c ∈ line, isPlain c) (kept : List Char) :
    beforeCommentFrom kept line = kept.reverse ++ line :=
  beforeCommentFrom_of_not_mem (fun hmem => absurd (h _ hmem) (by decide)) kept

theorem squeeze_plain {line : List Char} (h : ∀ c ∈ line, isPlain c) :
    squeeze (beforeComment line) = line := by
  rw [beforeComment, beforeCommentFrom_plain h]
  refine List.filter_eq_self.2 fun c hc => ?_
  have := h c hc
  simp only [isPlain, Bool.and_eq_true] at this
  exact this.1

theorem dropReturn_plain {line : List Char} (h : ∀ c ∈ line, isPlain c) : dropReturn line = line := by
  refine if_neg fun hlast => ?_
  exact absurd (h _ (List.mem_of_getLast? hlast)) (by decide)

theorem not_mem_plain {line : List Char} (h : ∀ c ∈ line, isPlain c) : '\n' ∉ line :=
  fun hmem => absurd (h _ hmem) (by decide)

theorem cutAt?_append {sep : Char} {before : List Char} (h : sep ∉ before) (after : List Char) :
    cutAt? sep (before ++ sep :: after) = some (before, after) := by
  have hbefore : ∀ c ∈ before, (c != sep) = true := fun c hc =>
    bne_iff_ne.2 fun heq => h (heq ▸ hc)
  rw [cutAt?, List.dropWhile_append_of_pos hbefore, List.takeWhile_append_of_pos hbefore]
  simp

theorem cutAt?_none {sep : Char} {text : List Char} (h : sep ∉ text) : cutAt? sep text = none := by
  have htext : text.dropWhile (· != sep) = [] := by
    induction text with
    | nil => rfl
    | cons c text ih =>
      obtain ⟨hc, htext⟩ := List.ne_and_not_mem_of_not_mem_cons h
      have hkeep : (c != sep) = true := bne_iff_ne.2 (Ne.symm hc)
      rw [List.dropWhile_cons, if_pos hkeep, ih htext]
  rw [cutAt?, htext]

end Text

open Text

theorem isAlpha_range {c : Char} (h : c.isAlpha) :
    (65 ≤ c.toNat ∧ c.toNat ≤ 90) ∨ (97 ≤ c.toNat ∧ c.toNat ≤ 122) := by
  obtain h | h := Bool.or_eq_true_iff.1 h
  · exact .inl ((of_decide_eq_true h).imp UInt32.le_iff_toNat_le.1 UInt32.le_iff_toNat_le.1)
  · obtain ⟨hlow, hhigh⟩ := Bool.and_eq_true_iff.1 h
    exact .inr ⟨UInt32.le_iff_toNat_le.1 (of_decide_eq_true hlow),
      UInt32.le_iff_toNat_le.1 (of_decide_eq_true hhigh)⟩

theorem isDigit_range {c : Char} (h : c.isDigit) : 48 ≤ c.toNat ∧ c.toNat ≤ 57 := by
  simp only [Char.isDigit, Bool.and_eq_true, decide_eq_true_eq, ge_iff_le] at h
  exact h.imp UInt32.le_iff_toNat_le.1 UInt32.le_iff_toNat_le.1

theorem isSymbolMark_range {c : Char} (h : isSymbolMark c) : c.toNat ∈ [36, 46, 58, 95] := by
  simp only [isSymbolMark, Bool.or_eq_true, decide_eq_true_eq] at h
  obtain ((rfl | rfl) | rfl) | rfl := h <;> decide

theorem isSymbolChar_range {c : Char} (h : isSymbolChar c) :
    c.toNat ∈ [36, 46, 58, 95] ∨ (48 ≤ c.toNat ∧ c.toNat ≤ 57) ∨ (65 ≤ c.toNat ∧ c.toNat ≤ 90) ∨
      (97 ≤ c.toNat ∧ c.toNat ≤ 122) := by
  simp only [isSymbolChar, Char.isAlphanum, Bool.or_eq_true] at h
  obtain (h | h) | h := h
  · exact .inr (.inr (isAlpha_range h))
  · exact .inr (.inl (isDigit_range h))
  · exact .inl (isSymbolMark_range h)

theorem isPlain_symbolChar {c : Char} (h : isSymbolChar c) : isPlain c := by
  have hrange := isSymbolChar_range h
  simp only [List.mem_cons, List.not_mem_nil, or_false] at hrange
  have hne : c ≠ '/' := by
    rintro rfl
    revert hrange
    decide
  have hblank : isBlank c = false := by
    simp [isBlank, blankRanges]
    omega
  simp [isPlain, hblank, hne]

theorem isPlain_symbol {name : List Char} (h : isSymbol name) : ∀ c ∈ name, isPlain c :=
  fun c hc => isPlain_symbolChar (List.all_eq_true.1 (isSymbol_all h) c hc)

theorem isSymbolChar_digit {c : Char} (h : c.isDigit) : isSymbolChar c := by
  simp only [isSymbolChar, Char.isAlphanum, h, Bool.or_true, Bool.true_or]

theorem isPlain_digits (n : Nat) : ∀ c ∈ Decimal.digits n, isPlain c :=
  fun _ hc => isPlain_symbolChar (isSymbolChar_digit (Decimal.isDigit_of_mem_digits hc))

theorem Decimal.value?_digits (n : Nat) : value? (digits n) = some n := by
  have hne : digits n ≠ [] := by
    intro h
    have hvalue := value_digits n
    rw [h] at hvalue
    subst hvalue
    exact absurd h (by decide)
  have hnumeral : isNumeral (digits n) := by
    simp only [isNumeral, Bool.and_eq_true, Bool.not_eq_true', List.isEmpty_eq_false_iff]
    exact ⟨hne, List.all_eq_true.2 fun c hc => isDigit_of_mem_digits hc⟩
  rw [value?, if_pos hnumeral, value_digits]

theorem isDigit_symbolStart {c : Char} (h : isSymbolStart c) : ¬ c.isDigit := by
  intro hdigit
  have hrange := isDigit_range hdigit
  obtain h | h := Bool.or_eq_true_iff.1 h
  · have halpha := isAlpha_range h
    omega
  · have hmark := isSymbolMark_range h
    simp only [List.mem_cons, List.not_mem_nil, or_false] at hmark
    omega

theorem Decimal.value?_symbol {name : List Char} (h : isSymbol name) : value? name = none := by
  refine if_neg fun hnumeral => ?_
  cases name with
  | nil => cases h
  | cons c rest =>
    simp only [isSymbol, Bool.and_eq_true] at h
    simp only [isNumeral, List.all_cons, Bool.and_eq_true] at hnumeral
    exact absurd hnumeral.2.1 (isDigit_symbolStart h.1)

namespace Dest

theorem text_chars (s : Dest) : ∀ c ∈ s.text.toList, isPlain c ∧ c ∉ ['=', '(', '@'] := by
  obtain ⟨a, d, m⟩ := s
  cases a <;> cases d <;> cases m <;> exact List.all_iff_forall_prop.1 (by decide)

theorem ofText?_text {s : Dest} (h : s ≠ .none) : ofText? s.text.toList = some s := by
  revert h
  obtain ⟨a, d, m⟩ := s
  cases a <;> cases d <;> cases m <;> decide

end Dest

namespace Jump

theorem text_chars (j : Jump) : ∀ c ∈ j.text.toList, isPlain c ∧ c ≠ '=' := by
  obtain ⟨lt, eq, gt⟩ := j
  cases lt <;> cases eq <;> cases gt <;> exact List.all_iff_forall_prop.1 (by decide)

theorem ofText?_text {j : Jump} (h : j ≠ .never) : ofText? j.text = some j := by
  revert h
  obtain ⟨lt, eq, gt⟩ := j
  cases lt <;> cases eq <;> cases gt <;> decide

end Jump

namespace Comp

theorem text_chars (comp : Comp) :
    comp.text.toList ≠ [] ∧ ∀ c ∈ comp.text.toList, isPlain c ∧ c ∉ ['=', ';', '(', '@'] := by
  have h : ∀ comp ∈ all, comp.text.toList ≠ [] ∧
      comp.text.toList.all fun c => isPlain c ∧ c ∉ ['=', ';', '(', '@'] := by
    decide
  obtain ⟨hne, hchars⟩ := h comp (mem_all comp)
  exact ⟨hne, List.all_iff_forall_prop.1 hchars⟩

theorem ofText?_text (comp : Comp) : ofText? comp.text = some comp := by
  have h : ∀ comp ∈ all, ofText? comp.text = some comp := by
    decide
  exact h comp (mem_all comp)

end Comp

namespace Assembly

def jumpText (j : Jump) : List Char := if j = .never then [] else ';' :: j.text.toList

theorem compute_text (c : Compute) : c.text.toList =
    (if c.dest = .none then [] else c.dest.text.toList ++ ['=']) ++
      (c.comp.text.toList ++ jumpText c.jump) := by
  simp only [Compute.text, String.toList_append, List.append_assoc, jumpText]
  congr 1
  · split
    · rfl
    · rw [String.toList_append]
      rfl
  · congr 1
    split
    · rfl
    · rw [String.toList_append]
      rfl

theorem jumpText_chars (j : Jump) : ∀ c ∈ jumpText j, isPlain c ∧ c ≠ '=' := by
  unfold jumpText
  split
  · simp
  · exact List.forall_mem_cons.2 ⟨by decide, j.text_chars⟩

theorem readJump_text (comp : Comp) (j : Jump) :
    readJump (comp.text.toList ++ jumpText j) = .ok (j, comp.text.toList) := by
  have hcomp : ';' ∉ comp.text.toList := fun h => absurd (comp.text_chars.2 _ h).2 (by decide)
  unfold jumpText readJump
  by_cases hj : j = .never
  · rw [if_pos hj, List.append_nil, cutAt?_none hcomp, hj]
  · rw [if_neg hj, cutAt?_append hcomp]
    simp only [String.ofList_toList, Jump.ofText?_text hj]

theorem readDest_text (c : Compute) :
    readDest c.text.toList = .ok (c.dest, c.comp.text.toList ++ jumpText c.jump) := by
  have htail : '=' ∉ c.comp.text.toList ++ jumpText c.jump := by
    rw [List.mem_append, not_or]
    exact ⟨fun h => absurd (c.comp.text_chars.2 _ h).2 (by decide),
      fun h => absurd rfl (jumpText_chars _ _ h).2⟩
  rw [compute_text]
  unfold readDest
  by_cases hd : c.dest = .none
  · rw [if_pos hd, List.nil_append, cutAt?_none htail, hd]
  · have hdest : '=' ∉ c.dest.text.toList := fun h => absurd (c.dest.text_chars _ h).2 (by decide)
    rw [if_neg hd, List.append_assoc, List.singleton_append, cutAt?_append hdest]
    simp only [Dest.ofText?_text hd]

theorem readCompute_text (c : Compute) : readCompute c.text.toList = .ok (.compute c) := by
  simp only [readCompute, readDest_text, bind, Except.bind, readJump_text, String.ofList_toList,
    Comp.ofText?_text]

def Statement.Writable : Statement → Prop
  | .value v => v.toNat ≤ Word.maxLiteral
  | .symbol name | .label name => isSymbol name.toList
  | .compute _ => True

instance (s : Statement) : Decidable s.Writable :=
  match s with
  | .value v => inferInstanceAs (Decidable (v.toNat ≤ Word.maxLiteral))
  | .symbol name | .label name => inferInstanceAs (Decidable (isSymbol name.toList))
  | .compute _ => inferInstanceAs (Decidable True)

def Line.Writable : Line → Prop
  | .statement s => s.Writable
  | .comment text => '\n' ∉ text.toList

instance (line : Line) : Decidable line.Writable :=
  match line with
  | .statement s => inferInstanceAs (Decidable s.Writable)
  | .comment text => inferInstanceAs (Decidable ('\n' ∉ text.toList))

namespace Statement

theorem text_value (v : Word) : (value v).text.toList = '@' :: Decimal.digits v.toNat := by
  simp [text, Decimal.text]

theorem text_symbol (name : String) : (symbol name).text.toList = '@' :: name.toList := by
  simp [text]

theorem text_label (name : String) : (label name).text.toList = '(' :: (name.toList ++ [')']) := by
  simp [text]

theorem compute_plain (c : Compute) : ∀ x ∈ c.text.toList, isPlain x := by
  rw [compute_text]
  refine List.forall_mem_append.2 ⟨?_, List.forall_mem_append.2
    ⟨fun x hx => (c.comp.text_chars.2 x hx).1, fun x hx => (jumpText_chars _ x hx).1⟩⟩
  split
  · simp
  · exact List.forall_mem_append.2 ⟨fun x hx => (c.dest.text_chars x hx).1, List.all_eq_true.1 rfl⟩

theorem text_plain {s : Statement} (h : s.Writable) : ∀ c ∈ s.text.toList, isPlain c := by
  cases s with
  | value v =>
    rw [text_value]
    exact List.forall_mem_cons.2 ⟨by decide, isPlain_digits _⟩
  | symbol name =>
    rw [text_symbol]
    exact List.forall_mem_cons.2 ⟨by decide, isPlain_symbol h⟩
  | label name =>
    rw [text_label]
    exact List.forall_mem_cons.2
      ⟨by decide, List.forall_mem_append.2 ⟨isPlain_symbol h, List.all_eq_true.1 rfl⟩⟩
  | compute c => exact compute_plain c

theorem cons_of_forall {start : List Char} (hne : start ≠ []) (h : ∀ x ∈ start, x ∉ ['(', '@'])
    (rest : List Char) : ∃ x tail, start ++ rest = x :: tail ∧ x ≠ '(' ∧ x ≠ '@' := by
  obtain ⟨x, xs, rfl⟩ := List.exists_cons_of_ne_nil hne
  have hx := h x List.mem_cons_self
  simp only [List.mem_cons, List.not_mem_nil, or_false, not_or] at hx
  exact ⟨x, xs ++ rest, rfl, hx⟩

/-- The text of a computation starts neither a label nor an address. -/
theorem compute_start (c : Compute) :
    ∃ x rest, c.text.toList = x :: rest ∧ x ≠ '(' ∧ x ≠ '@' := by
  rw [compute_text]
  by_cases hd : c.dest = .none
  · rw [if_pos hd]
    exact cons_of_forall c.comp.text_chars.1
      (fun x hx hmem => (c.comp.text_chars.2 x hx).2 (by simp_all)) _
  · rw [if_neg hd]
    refine cons_of_forall (by simp) (List.forall_mem_append.2
      ⟨fun x hx hmem => ?_, List.all_iff_forall_prop.1 (by decide)⟩) _
    exact (c.dest.text_chars x hx).2 (List.mem_cons_of_mem _ hmem)

theorem readLine_text {s : Statement} (h : s.Writable) : readLine s.text.toList = .ok (some s) := by
  rw [readLine, squeeze_plain (text_plain h)]
  cases s with
  | value v =>
    have hmax : Word.maxLiteral = 32767 := rfl
    have hv : v.toNat ≤ Word.maxLiteral := h
    have hbig : ¬ maxConstant < v.toNat := by
      rw [maxConstant]
      omega
    simp only [text_value, readAddress, Decimal.value?_digits, if_neg hbig,
      if_neg (Nat.not_lt.2 hv)]
    simp [Functor.map, Except.map]
  | symbol name =>
    have hname : isSymbol name.toList := h
    simp only [text_symbol, readAddress, Decimal.value?_symbol hname, hname, if_true,
      String.ofList_toList]
    rfl
  | label name =>
    have hname : isSymbol name.toList := h
    simp only [text_label, readLabel, List.getLast?_concat, List.dropLast_concat, hname, if_true,
      String.ofList_toList]
    rfl
  | compute c =>
    obtain ⟨x, rest, htext, hopen, hat⟩ := compute_start c
    have hread := readCompute_text c
    rw [text]
    rw [htext] at hread ⊢
    split
    next heq => cases heq
    next heq => exact absurd (List.cons.inj heq).1 hopen
    next heq => exact absurd (List.cons.inj heq).1 hat
    next => rw [hread]; rfl

end Statement

theorem toList_render (code : List Line) :
    (render code).toList = (code.map (·.text.toList)).flatMap (· ++ ['\n']) := by
  have hfold : ∀ (code : List Line) (text : String),
      (code.foldl (fun text line => text ++ line.text ++ "\n") text).toList =
        text.toList ++ (code.map (·.text.toList)).flatMap (· ++ ['\n']) := by
    intro code
    induction code with
    | nil => simp
    | cons line code ih =>
      intro text
      rw [List.foldl_cons, ih]
      simp [List.flatMap_cons]
  exact hfold code ""

def outcome? (line : List Char) : Option (Except Malformed Statement) :=
  match readLine line with
  | .ok s => s.map .ok
  | .error cause => some (.error cause)

def outcomes (text : List Char) : List (Except Malformed Statement) := (lines text).filterMap outcome?

def statementAt? (line : List Char × Nat) : Option Numbered :=
  match readLine line.1 with
  | .ok s => s.map (Numbered.mk line.2)
  | .error _ => none

theorem statements_foldl_next (ls : List (List Char × Nat)) (r : Reading) :
    (ls.foldl Reading.next r).statements.toList =
      r.statements.toList ++ ls.filterMap statementAt? := by
  induction ls generalizing r with
  | nil => simp
  | cons l ls ih =>
    rw [List.foldl_cons, ih, List.filterMap_cons]
    cases hl : readLine l.1 with
    | error cause => simp [Reading.next, statementAt?, hl]
    | ok s => cases s <;> simp [Reading.next, statementAt?, hl]

def errorAt? (line : List Char × Nat) : Option Error :=
  match readLine line.1 with
  | .ok _ => none
  | .error cause => some (.malformed line.2 cause)

theorem toList_errors_foldl_next (ls : List (List Char × Nat)) (r : Reading) :
    (ls.foldl Reading.next r).errors.toList = r.errors.toList ++ ls.filterMap errorAt? := by
  induction ls generalizing r with
  | nil => simp
  | cons l ls ih =>
    rw [List.foldl_cons, ih, List.filterMap_cons]
    cases hl : readLine l.1 with
    | error cause => simp [Reading.next, errorAt?, hl]
    | ok s => cases s <;> simp [Reading.next, errorAt?, hl]

theorem errorAt?_eq_none_iff {line : List Char × Nat} :
    errorAt? line = none ↔ ∃ s, readLine line.1 = .ok s := by
  unfold errorAt?
  split
  next s hs => exact iff_of_true rfl ⟨s, hs⟩
  next cause hcause => simp [hcause]

theorem errors_foldl_next (ls : List (List Char × Nat)) (r : Reading) :
    (ls.foldl Reading.next r).errors = #[] ↔
      r.errors = #[] ∧ ∀ l ∈ ls, ∃ s, readLine l.1 = .ok s := by
  rw [← Array.toList_eq_nil_iff, toList_errors_foldl_next, List.append_eq_nil_iff,
    Array.toList_eq_nil_iff, List.filterMap_eq_nil_iff]
  simp only [errorAt?_eq_none_iff]

/-- A source is read exactly if none of its lines is malformed, and then line by line. -/
theorem read_eq_ok_iff {source : String} {items : List Numbered} :
    read source = .ok items ↔ (∀ l ∈ lines source.toList, ∃ s, readLine l = .ok s) ∧
      ((lines source.toList).zipIdx 1).filterMap statementAt? = items := by
  have herrors := errors_foldl_next ((lines source.toList).zipIdx 1) {}
  have hstatements := statements_foldl_next ((lines source.toList).zipIdx 1) {}
  have hlines : (∀ l ∈ (lines source.toList).zipIdx 1, ∃ s, readLine l.1 = .ok s) ↔
      ∀ l ∈ lines source.toList, ∃ s, readLine l = .ok s := by
    rw [← List.forall_mem_map (f := Prod.fst) (P := fun l => ∃ s, readLine l = .ok s),
      List.zipIdx_map_fst]
  simp only [true_and, hlines] at herrors
  simp only [List.nil_append] at hstatements
  rw [← herrors, ← hstatements]
  simp only [read]
  split
  next hnone => simp [Array.isEmpty_iff.1 hnone]
  next hsome => simp [mt Array.isEmpty_iff.2 hsome]

theorem filterMap_outcome?_iff (ls : List (List Char)) (n : Nat) (code : List Statement) :
    (∀ l ∈ ls, ∃ s, readLine l = .ok s) ∧
        ((ls.zipIdx n).filterMap statementAt?).map (·.statement) = code ↔
      ls.filterMap outcome? = code.map .ok := by
  induction ls generalizing n code with
  | nil => simp [eq_comm]
  | cons l ls ih =>
    rw [List.zipIdx_cons, List.forall_mem_cons, List.filterMap_cons, List.filterMap_cons]
    cases hl : readLine l with
    | error cause =>
      refine iff_of_false (by simp) ?_
      cases code <;> simp [outcome?, hl]
    | ok s =>
      cases s with
      | none => simpa [statementAt?, outcome?, hl] using ih (n + 1) code
      | some s =>
        cases code with
        | nil => simp [statementAt?, outcome?, hl]
        | cons t code =>
          simp only [statementAt?, outcome?, hl, Option.map_some, List.map_cons, List.cons.injEq,
            Except.ok.injEq, ← ih (n + 1) code, exists_eq', true_and]
          exact and_left_comm

/-- A source can be read exactly if every line that is not vacant gives a statement. -/
theorem exists_read_iff {source : String} {code : List Statement} :
    (∃ lines, read source = .ok lines ∧ lines.map (·.statement) = code) ↔
      outcomes source.toList = code.map .ok := by
  simp only [read_eq_ok_iff, and_assoc, exists_and_left, exists_eq_left']
  exact filterMap_outcome?_iff (lines source.toList) 1 code

def Line.outcomes (line : Line) : List (Except Malformed Statement) :=
  ((splitAt '\n' line.text.toList).map dropReturn).filterMap outcome?

theorem outcomes_render (code : List Line) :
    outcomes (render code).toList = code.flatMap Line.outcomes := by
  rw [toList_render]
  induction code with
  | nil => rfl
  | cons line code ih =>
    rw [List.map_cons, List.flatMap_cons, List.append_assoc, List.singleton_append, outcomes,
      lines_append, List.filterMap_append, ← outcomes, ih]
    rfl

theorem readLine_statement {s : Statement} (h : s.Writable) :
    readLine (dropReturn (Line.statement s).text.toList) = .ok (some s) := by
  rw [Line.text, dropReturn_plain (Statement.text_plain h), Statement.readLine_text h]

theorem readLine_comment (note : String) :
    readLine (dropReturn (Line.comment note).text.toList) = .ok none := by
  have hstart : ∃ rest, dropReturn (Line.comment note).text.toList = '/' :: '/' :: rest := by
    rw [Line.text, String.toList_append, dropReturn]
    split
    · exact ⟨_, rfl⟩
    · exact ⟨_, rfl⟩
  obtain ⟨rest, hrest⟩ := hstart
  rw [hrest]
  rfl

theorem Line.text_line {line : Line} (h : line.Writable) : '\n' ∉ line.text.toList := by
  cases line with
  | statement s => exact not_mem_plain (Statement.text_plain h)
  | comment note =>
    rw [Line.text, String.toList_append, List.mem_append, not_or]
    exact ⟨by decide, h⟩

theorem outcomes_statement {s : Statement} (h : s.Writable) :
    (Line.statement s).outcomes = [.ok s] := by
  have hline : '\n' ∉ (Line.statement s).text.toList := Line.text_line h
  rw [Line.outcomes, splitAt_of_not_mem hline, List.map_singleton]
  simp [outcome?, readLine_statement h]

/-- A comment that stays on its line has no outcome. -/
theorem outcomes_comment {note : String} (h : '\n' ∉ note.toList) :
    (Line.comment note).outcomes = [] := by
  have hline : '\n' ∉ (Line.comment note).text.toList := Line.text_line h
  rw [Line.outcomes, splitAt_of_not_mem hline, List.map_singleton]
  simp [outcome?, readLine_comment note]

theorem flatMap_outcomes {code : List Line} (h : ∀ note ∈ comments code, '\n' ∉ note.toList) :
    code.flatMap Line.outcomes = (statements code).flatMap fun s => (Line.statement s).outcomes := by
  induction code with
  | nil => rfl
  | cons line code ih =>
    rw [List.flatMap_cons]
    cases line with
    | statement s =>
      rw [ih h]
      rfl
    | comment note =>
      obtain ⟨hnote, hcode⟩ := List.forall_mem_cons.1 h
      rw [outcomes_comment hnote, ih hcode]
      rfl

theorem read_render {code : List Line} (h : ∀ line ∈ code, line.Writable) :
    ∃ source, read (render code) = .ok source ∧ source.map (·.statement) = statements code := by
  have hcomments (note : String) (hnote : note ∈ comments code) : '\n' ∉ note.toList :=
    h _ (mem_comments.1 hnote)
  have hstatements (s : Statement) (hs : s ∈ statements code) :
      (Line.statement s).outcomes = [.ok s] := outcomes_statement (h _ (mem_statements.1 hs))
  rw [exists_read_iff, outcomes_render, flatMap_outcomes hcomments, List.flatMap_congr hstatements,
    List.map_eq_flatMap]

theorem readLine_line {line : Line} (h : line.Writable) :
    readLine (dropReturn line.text.toList) = .ok line.statement? := by
  cases line with
  | statement s => exact readLine_statement h
  | comment note => exact readLine_comment note

/-- A carriage return at the end of a comment is taken for a part of the end of the line. -/
theorem lines_render {code : List Line} (h : ∀ line ∈ code, line.Writable) :
    lines (render code).toList = code.map fun line => dropReturn line.text.toList := by
  rw [toList_render, lines_ended, List.map_map]
  · rfl
  · exact List.forall_mem_map.2 fun line hline => Line.text_line (h line hline)

/-- The statements among some lines, each under the place of its line, counted from one. -/
def numbered (code : List Line) : List Numbered :=
  (code.zipIdx 1).filterMap fun line => line.1.statement?.map (Numbered.mk line.2)

/-- Rendered code is read back whole: every statement as it was and under the number of its line. -/
theorem read_rendered_lines {code : List Line} (h : ∀ line ∈ code, line.Writable) :
    read (render code) = .ok (numbered code) := by
  rw [read_eq_ok_iff, lines_render h, List.zipIdx_map, List.filterMap_map]
  constructor
  · exact List.forall_mem_map.2 fun line hline => ⟨_, readLine_line (h line hline)⟩
  · refine List.filterMap_congr fun line hline => ?_
    have hread := readLine_line (h line.1 (List.fst_mem_of_mem_zipIdx hline))
    simp only [Function.comp_apply, statementAt?, Prod.map_fst, Prod.map_snd, id_eq, hread]

section Sample

/-- Every kind of line, with numbers and names at the edge of what can be written and comments that look
like code. -/
def mixedLines : List Line :=
  [.comment "(A)\r", .statement (.label "_:1$.x"), .statement (.value 32767), .comment "",
   .statement (.compute ⟨⟨true, true, true⟩, .dOrY .m, ⟨true, true, false⟩⟩), .comment "@1 // 2",
   .statement (.symbol "$"), .statement .goto]

theorem read_rendered_mixedLines : (∀ line ∈ mixedLines, line.Writable) ∧
    read (render mixedLines) = .ok [⟨2, .label "_:1$.x"⟩, ⟨3, .value 32767⟩,
      ⟨5, .compute ⟨⟨true, true, true⟩, .dOrY .m, ⟨true, true, false⟩⟩⟩, ⟨7, .symbol "$"⟩,
      ⟨8, .goto⟩] := by
  have h : ∀ line ∈ mixedLines, line.Writable := by decide
  exact ⟨h, read_rendered_lines h⟩

end Sample

/-- Whatever the comments of rendered code add to it, its statements are read. -/
theorem mem_of_read_render {code : List Line} {source : List Numbered}
    (hread : read (render code) = .ok source) {s : Statement} (hs : s ∈ statements code)
    (h : s.Writable) : s ∈ source.map (·.statement) := by
  have houtcomes := exists_read_iff.1 ⟨source, hread, rfl⟩
  rw [outcomes_render] at houtcomes
  have hok : .ok s ∈ (source.map (·.statement)).map (Except.ok (ε := Malformed)) := by
    rw [← houtcomes]
    refine List.mem_flatMap.2 ⟨_, mem_statements.1 hs, ?_⟩
    rw [outcomes_statement h]
    exact List.mem_singleton_self _
  obtain ⟨t, ht, heq⟩ := List.mem_map.1 hok
  exact Except.ok.inj heq ▸ ht

theorem assemble_render {code : List Line} (h : ∀ line ∈ code, line.Writable) :
    ∃ source, source.map (·.statement) = statements code ∧
      assemble (render code) = bindLabels source >>= fun labels => .ok (encodeWith labels source) := by
  obtain ⟨source, hread, hsource⟩ := read_render h
  exact ⟨source, hsource, assemble_of_read hread⟩

theorem assembles_render {code : List Line} (h : ∀ line ∈ code, line.Writable) {p : Program}
    (hp : assemble (render code) = .ok p) : p.Assembles (statements code) := by
  obtain ⟨source, hsource, hassemble⟩ := assemble_render h
  obtain ⟨labels, hlabels, hencode⟩ := bind_eq_ok (hassemble.symm.trans hp)
  cases hencode
  exact hsource ▸ assembles_encodeWith hlabels

theorem exists_assemble_render {code : List Line} (h : ∀ line ∈ code, line.Writable)
    (hbind : Bindable (statements code)) (hsize : codeSize (statements code) ≤ romSize) :
    ∃ p, assemble (render code) = .ok p := by
  obtain ⟨source, hread, hsource⟩ := read_render h
  exact (exists_assemble_iff hread).2 (hsource.symm ▸ ⟨hbind, hsize⟩)

def ReportsDuplicate (source : String) : Prop :=
  ∃ errors line name, assemble source = .error errors ∧ .duplicateLabel line name ∈ errors

/-- Assembling rendered code reports a duplicate exactly if some label is not new where it is
declared. -/
theorem reportsDuplicate_render {code : List Line} (h : ∀ line ∈ code, line.Writable) :
    ReportsDuplicate (render code) ↔ ¬ Bindable (statements code) := by
  obtain ⟨source, hsource, hassemble⟩ := assemble_render h
  rw [ReportsDuplicate, ← hsource, ← bindLabels_duplicate, hassemble]
  cases hlabels : bindLabels source with
  | ok labels => simp [bind, Except.bind]
  | error errors => simp [bind, Except.bind]

end Assembly

end HackStack
