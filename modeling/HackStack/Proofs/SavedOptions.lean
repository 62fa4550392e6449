import HackStack.Proofs.Generated
import HackStack.Proofs.Printing
import HackStack.Proofs.Trees
import HackStack.Tool.Sources
import Mathlib.Data.List.DropRight

set_option autoImplicit false

/-! # Saved options

Every character of a text is written so that it is read as one part of a string, and the parts join to
the text again. The members of the written options are read one by one, and each comes back as the choice
it was written for, whatever the options are. Only then are they held against what a program can use. -/

namespace HackStack

namespace Json

def partOf (c : Char) : Part :=
  if (shortEscapes.find? fun e => e.2 = c).isNone && c.toNat < 32 then .unit c.toNat else .char c

theorem hexValue?_digitChar {n : Nat} (h : n < 16) : hexValue? (Nat.digitChar n) = some n := by
  have hall : ∀ n < 16, hexValue? (Nat.digitChar n) = some n := by
    decide
  exact hall n h

theorem hexUnit?_hexPair {n : Nat} (h : n < 256) :
    hexUnit? '0' '0' (Nat.digitChar (n / 16)) (Nat.digitChar (n % 16)) = some n := by
  have hzero : hexValue? '0' = some 0 := rfl
  have hsum : ((0 * 16 + 0) * 16 + n / 16) * 16 + n % 16 = n := by
    omega
  rw [hexUnit?, hzero, hexValue?_digitChar (by omega : n / 16 < 16),
    hexValue?_digitChar (by omega : n % 16 < 16)]
  exact congrArg some hsum

theorem shortEscape_spec : ∀ e ∈ shortEscapes, e.1 ≠ 'u' ∧ shortEscape? e.1 = some e.2 := by
  decide

theorem scanString_short {e : Char × Char} (he : e ∈ shortEscapes) (parts : List Part)
    (rest : List Char) :
    scanString parts (backslash :: e.1 :: rest) = scanString (.char e.2 :: parts) rest := by
  obtain ⟨hu, hchar⟩ := shortEscape_spec e he
  rw [backslash, scanString]
  · simp only [hchar]
  · exact fun _ _ _ _ _ h _ => hu h

theorem scanString_plain {c : Char} (hmark : c ≠ quotationMark) (hslash : c ≠ backslash)
    (hcontrol : ¬ c.toNat < 32) (parts : List Part) (rest : List Char) :
    scanString parts (c :: rest) = scanString (.char c :: parts) rest := by
  rw [scanString]
  all_goals simp_all [quotationMark, backslash]

/-- A written character is read as one part. -/
theorem scanString_escape (c : Char) (parts : List Part) (rest : List Char) :
    scanString parts (escape c ++ rest) = scanString (partOf c :: parts) rest := by
  unfold escape partOf
  cases hfind : shortEscapes.find? fun e => e.2 = c with
  | some e =>
    have hc : e.2 = c := by simpa using List.find?_some hfind
    have he : e ∈ shortEscapes := List.mem_of_find?_eq_some hfind
    simp only [Option.isNone_some, Bool.false_and, Bool.false_eq_true, if_false, List.cons_append,
      List.nil_append]
    rw [scanString_short he, hc]
  | none =>
    simp only [Option.isNone_none, Bool.true_and, decide_eq_true_eq]
    have hshort := List.find?_eq_none.1 hfind
    split
    next hcontrol =>
      simp only [hexPair, List.cons_append, List.nil_append]
      rw [backslash, scanString, hexUnit?_hexPair (by omega)]
    next hcontrol =>
      refine scanString_plain ?_ ?_ hcontrol parts rest
      · rintro rfl
        exact hshort ('"', '"') (by decide) (by decide)
      · rintro rfl
        exact hshort ('\\', '\\') (by decide) (by decide)

theorem scanString_written (text : List Char) (parts : List Part) (rest : List Char) :
    scanString parts (text.flatMap escape ++ quotationMark :: rest) =
      some (parts.reverse ++ text.map partOf, rest) := by
  induction text generalizing parts with
  | nil => simp [quotationMark, scanString]
  | cons c text ih =>
    rw [List.flatMap_cons, List.append_assoc, scanString_escape, ih]
    simp

/-- A unit that is no half of a pair is a character, whether or not another unit follows. -/
theorem joinParts?_unit {n : Nat} (hhigh : isHighHalf n = false) (hlow : isLowHalf n = false)
    (text : List Char) (rest : List Part) :
    joinParts? text (.unit n :: rest) = joinParts? (Char.ofNat n :: text) rest := by
  cases rest with
  | nil => simp [joinParts?, hhigh, hlow]
  | cons part rest => cases part <;> simp [joinParts?, hhigh, hlow]

theorem joinParts?_partOf (c : Char) (text : List Char) (rest : List Part) :
    joinParts? text (partOf c :: rest) = joinParts? (c :: text) rest := by
  unfold partOf
  split
  next hunit =>
    have hsmall : c.toNat < 32 := by
      simp only [Bool.and_eq_true, decide_eq_true_eq] at hunit
      exact hunit.2
    have hhigh : isHighHalf c.toNat = false := by
      simp only [isHighHalf, Bool.and_eq_false_iff, decide_eq_false_iff_not]
      omega
    have hlow : isLowHalf c.toNat = false := by
      simp only [isLowHalf, Bool.and_eq_false_iff, decide_eq_false_iff_not]
      omega
    rw [joinParts?_unit hhigh hlow, Char.ofNat_toNat]
  next => rw [joinParts?]

theorem joinParts?_written (text read : List Char) :
    joinParts? read (text.map partOf) = some (String.ofList (read.reverse ++ text)) := by
  induction text generalizing read with
  | nil => simp [joinParts?]
  | cons c text ih =>
    rw [List.map_cons, joinParts?_partOf, ih]
    simp

theorem readString_written (text : String) (rest : List Char) :
    readString (text.toList.flatMap escape ++ quotationMark :: rest) = some (some text, rest) := by
  rw [readString, scanString_written]
  simp [joinParts?_written]

def Delimits (rest : List Char) : Prop := ∃ c tail, rest = c :: tail ∧ (c = ',' ∨ c = '\n')

def Reads (text : List Char) (value : Value) : Prop :=
  ∀ fuel rest, Delimits rest → readValue (fuel + 1) (text ++ rest) = some (value, rest)

theorem head?_digitsBefore {fuel n : Nat} (h : n < fuel) (hn : n ≠ 0) :
    ∃ d rest, Decimal.digitsBefore [] fuel n = Decimal.digit d :: rest ∧ d ≠ 0 ∧ d < 10 := by
  induction fuel generalizing n with
  | zero => omega
  | succ fuel ih =>
    rw [Decimal.digitsBefore]
    split
    next hsmall => exact ⟨n, [], rfl, hn, hsmall⟩
    next hlarge =>
      obtain ⟨d, rest, hdigits, hd⟩ := ih (by omega : n / 10 < fuel) (by omega)
      rw [Decimal.digitsBefore_eq, hdigits]
      exact ⟨d, _, rfl, hd⟩

/-- A numeral of more than one digit does not start with a zero. -/
theorem no_leading_zero (n : Nat) :
    ((Decimal.digits n).head? = some '0' && 1 < (Decimal.digits n).length) = false := by
  by_cases hn : n = 0
  · subst hn
    rfl
  · obtain ⟨d, rest, hdigits, hd, hten⟩ := head?_digitsBefore (Nat.lt_succ_self n) hn
    have hall : ∀ d < 10, d ≠ 0 → Decimal.digit d ≠ '0' := by
      decide
    rw [Decimal.digits, hdigits]
    simp [hall d hten hd]

theorem scanDigits_append {digits rest : List Char} (hne : digits ≠ [])
    (hdigits : ∀ c ∈ digits, c.isDigit) (hrest : ∀ c ∈ rest.head?, c.isDigit = false) :
    scanDigits (digits ++ rest) = some (digits, rest) := by
  have htake : (digits ++ rest).takeWhile Char.isDigit = digits := by
    rw [List.takeWhile_append_of_pos hdigits]
    cases rest with
    | nil => simp
    | cons c rest => simp [hrest c rfl]
  have hdrop : (digits ++ rest).dropWhile Char.isDigit = rest := by
    rw [List.dropWhile_append_of_pos hdigits]
    cases rest with
    | nil => rfl
    | cons c rest => simp [hrest c rfl]
  simp only [scanDigits, htake, hdrop]
  rw [if_neg (by simpa using hne)]

theorem Delimits.scans {rest : List Char} (h : Delimits rest) :
    (∀ c ∈ rest.head?, c.isDigit = false) ∧ scanFraction rest = some (false, rest) ∧
      scanExponent rest = some (false, rest) := by
  obtain ⟨c, tail, rfl, rfl | rfl⟩ := h
  · exact ⟨fun c hc => by cases hc; rfl, rfl, rfl⟩
  · exact ⟨fun c hc => by cases hc; rfl, rfl, rfl⟩

theorem scanUnsigned_numeral (n : Nat) {rest : List Char} (h : Delimits rest) :
    scanUnsigned (Decimal.digits n ++ rest) = some (some n, rest) := by
  obtain ⟨hdigit, hfraction, hexponent⟩ := h.scans
  have hscan := scanDigits_append (Command.digits_ne_nil n)
    (fun c hc => Decimal.isDigit_of_mem_digits hc) hdigit
  simp only [scanUnsigned, hscan, bind, Option.bind, no_leading_zero, hfraction, hexponent,
    Decimal.value_digits]
  rfl

theorem skipBlank_cons {c : Char} (h : isBlank c = false) (rest : List Char) :
    skipBlank (c :: rest) = c :: rest := by
  simp [skipBlank, h]

theorem skipBlank_blank {c : Char} (h : isBlank c) (rest : List Char) :
    skipBlank (c :: rest) = skipBlank rest := by
  simp [skipBlank, h]

theorem isBlank_digit {c : Char} (h : c.isDigit) : isBlank c = false := by
  simp only [isBlank, Bool.or_eq_false_iff, decide_eq_false_iff_not]
  refine ⟨⟨⟨?_, ?_⟩, ?_⟩, ?_⟩ <;>
  · rintro rfl
    exact absurd h (by decide)

theorem reads_numeral (n : Nat) : Reads (Decimal.digits n) (.number (some n)) := by
  intro fuel rest hrest
  have hscan := scanUnsigned_numeral n hrest
  cases hdigits : Decimal.digits n with
  | nil => exact absurd hdigits (Command.digits_ne_nil n)
  | cons c digits =>
    have hc : c.isDigit := Decimal.isDigit_of_mem_digits (hdigits ▸ List.mem_cons_self)
    rw [hdigits, List.cons_append] at hscan
    rw [List.cons_append, readValue, skipBlank_cons (isBlank_digit hc)]
    -- None of the characters that start another kind of value is a digit.
    split
    case h_7 =>
      rw [scanNumber, hscan]
      · rfl
      · intro tail h
        cases (List.cons.inj h).1
        exact absurd hc (by decide)
    all_goals
      next h =>
        cases (List.cons.inj h).1
        exact absurd hc (by decide)

theorem readValue_string {text rest after : List Char} {s : Option String}
    (htext : skipBlank text = '"' :: rest) (hread : readString rest = some (s, after)) (fuel : Nat) :
    readValue (fuel + 1) text = some (.string s, after) := by
  rw [readValue, htext]
  simp only [hread, Option.map_some]

theorem reads_quote (s : String) : Reads (quote s).toList (.string (some s)) := by
  intro fuel rest _
  have htext : (quote s).toList ++ rest =
      quotationMark :: (s.toList.flatMap escape ++ quotationMark :: rest) := by
    simp [quote]
  rw [htext]
  exact readValue_string (skipBlank_cons (by decide) _) (readString_written s rest) fuel

theorem reads_bool (b : Bool) : Reads (if b then "true" else "false").toList (.bool b) := by
  intro fuel rest _
  cases b <;> rfl

theorem readKey_of_skip {text rest after : List Char} {key : Option String}
    (htext : skipBlank text = '"' :: rest) (hread : readString rest = some (key, ':' :: after)) :
    readKey text = some (key, after) := by
  rw [readKey, htext]
  simp only [hread, skipBlank_cons (show isBlank ':' = false by decide)]

structure Member where
  key : String
  text : List Char
  value : Value

namespace Member

def line (m : Member) : List Char :=
  '\n' :: ' ' :: ' ' :: ((quote m.key).toList ++ ':' :: ' ' :: m.text)

def tail : List Member → List Char
  | [] => ['\n', '\x7d']
  | m :: ms => ',' :: (m.line ++ tail ms)

theorem delimits_tail (ms : List Member) (rest : List Char) : Delimits (tail ms ++ rest) := by
  cases ms with
  | nil => exact ⟨'\n', _, rfl, .inr rfl⟩
  | cons m ms => exact ⟨',', _, rfl, .inl rfl⟩

theorem skipBlank_line (m : Member) (rest : List Char) :
    skipBlank (m.line ++ rest) = quotationMark ::
      (m.key.toList.flatMap escape ++ quotationMark :: ':' :: ' ' :: (m.text ++ rest)) := by
  have hline : m.line ++ rest = '\n' :: ' ' :: ' ' :: quotationMark ::
      (m.key.toList.flatMap escape ++ quotationMark :: ':' :: ' ' :: (m.text ++ rest)) := by
    simp [line, quote]
  rw [hline, skipBlank_blank (by decide), skipBlank_blank (by decide), skipBlank_blank (by decide),
    skipBlank_cons (by decide)]

theorem readKey_line (m : Member) (rest : List Char) :
    readKey (m.line ++ rest) = some (some m.key, ' ' :: (m.text ++ rest)) :=
  readKey_of_skip (skipBlank_line m rest) (readString_written m.key _)

theorem readValue_line {m : Member} (h : Reads m.text m.value) (fuel : Nat) {rest : List Char}
    (hrest : Delimits rest) :
    readValue (fuel + 1) (' ' :: (m.text ++ rest)) = some (m.value, rest) := by
  have hread := h fuel rest hrest
  rw [readValue] at hread ⊢
  rwa [skipBlank_blank (by decide)]

/-- The members of a written object are read one after the other. -/
theorem readMembers_lines {m : Member} {ms : List Member}
    (h : ∀ x ∈ m :: ms, Reads x.text x.value) (fuel : Nat) (read : List (Option String × Value))
    (rest : List Char) :
    readMembers (fuel + ms.length + 2) read (m.line ++ (tail ms ++ rest)) =
      some (.object (read.reverse ++ (m :: ms).map fun x => (some x.key, x.value)), rest) := by
  induction ms generalizing m read with
  | nil =>
    have hvalue := readValue_line (h m List.mem_cons_self) fuel (delimits_tail [] rest)
    rw [List.length_nil, Nat.add_zero, readMembers, readKey_line]
    simp only [hvalue]
    simp [tail, skipBlank_blank (show isBlank '\n' by decide),
      skipBlank_cons (show isBlank '\x7d' = false by decide)]
  | cons next ms ih =>
    obtain ⟨hm, hms⟩ := List.forall_mem_cons.1 h
    have hvalue := readValue_line hm (fuel + ms.length + 1) (delimits_tail (next :: ms) rest)
    rw [List.length_cons, ← Nat.add_assoc, readMembers, readKey_line]
    simp only [hvalue]
    simp only [tail, List.cons_append, List.append_assoc,
      skipBlank_cons (show isBlank ',' = false by decide)]
    rw [ih hms]
    simp

theorem readMembers_skipBlank (fuel : Nat) (read : List (Option String × Value)) (text : List Char) :
    readMembers fuel read (skipBlank text) = readMembers fuel read text := by
  cases fuel with
  | zero => simp only [readMembers]
  | succ fuel =>
    have hskip : skipBlank (skipBlank text) = skipBlank text := List.dropWhile_idempotent _ _
    rw [readMembers, readMembers, readKey, readKey, hskip]

theorem length_le_tail (ms : List Member) : ms.length ≤ (tail ms).length := by
  induction ms with
  | nil => exact Nat.zero_le _
  | cons m ms ih =>
    simp only [tail, List.length_cons, List.length_append]
    omega

theorem parse?_object {m : Member} {ms : List Member} (h : ∀ x ∈ m :: ms, Reads x.text x.value)
    {text : String} (htext : text.toList = '\x7b' :: (m.line ++ tail ms)) :
    parse? text = some (.object ((m :: ms).map fun x => (some x.key, x.value))) := by
  have hlength : text.length = 1 + (m.line.length + (tail ms).length) := by
    rw [← String.length_toList, htext, List.length_cons, List.length_append, Nat.add_comm]
  obtain ⟨fuel, hfuel⟩ : ∃ fuel, 2 * text.length + 2 = fuel + ms.length + 2 + 1 := by
    have := length_le_tail ms
    exact ⟨2 * text.length + 2 - (ms.length + 3), by omega⟩
  have hread := readMembers_lines h fuel [] []
  rw [List.append_nil, ← readMembers_skipBlank] at hread
  have hvalue : readValue (2 * text.length + 2) text.toList =
      some (.object ((m :: ms).map fun x => (some x.key, x.value)), []) := by
    rw [hfuel, htext, readValue, skipBlank_cons (by decide)]
    simp only
    split
    next rest hempty =>
      rw [skipBlank_line] at hempty
      cases hempty
    next => exact hread
  rw [parse?, hvalue]
  rfl

end Member

end Json

namespace Options

open Json

def baseMember (o : Options) : Member where
  key := "stack_base"
  text := Decimal.digits o.stackBase.toNat
  value := .number (some o.stackBase.toNat)

def otherMembers (o : Options) : List Member :=
  [{ key := "entry_point", text := (quote o.entryPoint).toList, value := .string (some o.entryPoint) },
   { key := "annotate"
     text := (if o.annotate then "true" else "false").toList
     value := .bool o.annotate }]

theorem reads_members (o : Options) : ∀ m ∈ o.baseMember :: o.otherMembers, Reads m.text m.value := by
  simp only [otherMembers, List.forall_mem_cons]
  exact ⟨reads_numeral _, reads_quote _, reads_bool _, List.forall_mem_nil _⟩

theorem toList_text (o : Options) :
    o.text.toList = '\x7b' :: (o.baseMember.line ++ Member.tail o.otherMembers) := by
  have hbase : ("\x7b\n  \"stack_base\": ").toList =
      '\x7b' :: '\n' :: ' ' :: ' ' :: ((quote "stack_base").toList ++ [':', ' ']) := by decide
  have hentry : (",\n  \"entry_point\": ").toList =
      ',' :: '\n' :: ' ' :: ' ' :: ((quote "entry_point").toList ++ [':', ' ']) := by decide
  have hannotate : (",\n  \"annotate\": ").toList =
      ',' :: '\n' :: ' ' :: ' ' :: ((quote "annotate").toList ++ [':', ' ']) := by decide
  have hend : ("\n\x7d").toList = ['\n', '\x7d'] := by decide
  unfold text
  simp only [String.toList_append]
  rw [hbase, hentry, hannotate, hend, Decimal.text, String.toList_ofList]
  simp only [baseMember, otherMembers, Member.line, Member.tail, List.cons_append, List.nil_append,
    List.append_assoc]

theorem ofText?_text (o : Options) : ofText? o.text = some o := by
  have hword : wordOf (.number (some o.stackBase.toNat)) = some o.stackBase := by
    have hle : o.stackBase.toNat ≤ 65535 := Nat.le_of_lt_succ o.stackBase.toNat_lt
    rw [wordOf, if_pos hle, Nat.toUInt16_eq, UInt16.ofNat_toNat]
  rw [ofText?, Member.parse?_object o.reads_members o.toList_text]
  simp [ofValue?, otherMembers, baseMember, member, hword, textOf, boolOf]

def Usable (o : Options) : Prop := o.stackBase.toNat ≤ 32767 ∧ isSymbol o.entryPoint.toList

theorem validate_of_usable {o : Options} (h : o.Usable) : o.validate = .ok () := by
  have hbase : ¬ Word.maxLiteral < o.stackBase.toNat := Nat.not_lt.2 h.1
  rw [validate, if_neg hbase, if_pos h.2]

theorem validate_of_not_usable {o : Options} (h : ¬ o.Usable) : ∃ cause, o.validate = .error cause := by
  cases hvalidate : o.validate with
  | error cause => exact ⟨cause, rfl⟩
  | ok => exact absurd (Lowering.validate_eq_ok hvalidate) h

end Options

namespace Tool

open Files

/-- Options are loaded from any file that holds their text, and held against what a program can use only
after that. -/
theorem loadOptions_of_read {t : Tree} {path : Path} {o : Options} (h : t.read path = .ok o.text) :
    (o.validate = .ok () → loadOptions t path = .ok o) ∧
      ∀ cause, o.validate = .error cause → loadOptions t path = .error (.invalidConfig path cause) := by
  constructor
  · intro hvalid
    simp only [loadOptions, h, Options.ofText?_text, hvalid]
  · intro cause hcause
    simp only [loadOptions, h, Options.ofText?_text, hcause]

/-- Saved options load back, unless the bootstrap cannot be made with them: then they are read as they
were saved and refused for that. -/
theorem saved_options_load {t u : Tree} {o : Options} {path : Path}
    (h : saveOptions t o path = .ok u) :
    u.read path = .ok o.text ∧ Options.ofText? o.text = some o ∧
      (o.Usable → loadOptions u path = .ok o) ∧
      (¬ o.Usable → ∃ cause, o.validate = .error cause ∧
        loadOptions u path = .error (.invalidConfig path cause)) := by
  have hread : u.read path = .ok o.text := by
    unfold saveOptions at h
    split at h
    next => cases h
    next after hwrite =>
      cases h
      exact Tree.read_of_write hwrite
  obtain ⟨hok, herror⟩ := loadOptions_of_read hread
  refine ⟨hread, o.ofText?_text, fun husable => hok (Options.validate_of_usable husable), fun hnot => ?_⟩
  obtain ⟨cause, hcause⟩ := Options.validate_of_not_usable hnot
  exact ⟨cause, hcause, herror cause hcause⟩

theorem saved_options_load_odd : ∃ u,
    saveOptions (.empty ["work"]) ⟨32767, "\"\\\x01😀", false⟩ ⟨"vmt.json"⟩ = .ok u ∧
      loadOptions u ⟨"vmt.json"⟩ =
        .error (.invalidConfig ⟨"vmt.json"⟩ (.badEntryPoint "\"\\\x01😀")) := by
  have hsave : ∃ u, saveOptions (.empty ["work"]) ⟨32767, "\"\\\x01😀", false⟩ ⟨"vmt.json"⟩ = .ok u :=
    ⟨_, rfl⟩
  obtain ⟨u, hu⟩ := hsave
  obtain ⟨-, -, -, hrefused⟩ := saved_options_load hu
  obtain ⟨cause, hcause, hload⟩ := hrefused (by rintro ⟨-, ⟨⟩⟩)
  cases hcause
  exact ⟨u, hu, hload⟩

end Tool

end HackStack
