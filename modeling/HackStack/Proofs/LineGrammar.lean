import HackStack.Proofs.Rendering
import HackStack.Proofs.Words

set_option autoImplicit false

namespace HackStack

namespace Text

theorem cutAt?_eq_some_iff {sep : Char} {text before after : List Char} :
    cutAt? sep text = some (before, after) ↔ sep ∉ before ∧ text = before ++ sep :: after := by
  constructor
  · intro h
    have hmem : sep ∈ text := by
      by_contra hnot
      rw [cutAt?_none hnot] at h
      cases h
    obtain ⟨first, rest, rfl, hfirst⟩ := List.eq_append_cons_of_mem hmem
    rw [cutAt?_append hfirst] at h
    cases h
    exact ⟨hfirst, rfl⟩
  · rintro ⟨hbefore, rfl⟩
    exact cutAt?_append hbefore after

end Text

open Text

namespace Dest

def Has (s : Dest) (c : Char) : Prop := c = 'A' ∧ s.a ∨ c = 'D' ∧ s.d ∨ c = 'M' ∧ s.m

/-- Some letters spell a set that is not empty: its letters in any order, each once. -/
def SpelledBy (s : Dest) (letters : List Char) : Prop :=
  letters ≠ [] ∧ letters.Nodup ∧ ∀ c, c ∈ letters ↔ s.Has c

theorem ext_has {s t : Dest} (h : ∀ c, s.Has c ↔ t.Has c) : s = t := by
  obtain ⟨a, d, m⟩ := s
  obtain ⟨a', d', m'⟩ := t
  have ha := h 'A'
  have hd := h 'D'
  have hm := h 'M'
  simp only [Has, Char.reduceEq, true_and, false_and, false_or, or_false, ← Bool.eq_iff_iff]
    at ha hd hm
  rw [ha, hd, hm]

theorem has_none (c : Char) : ¬ none.Has c := by
  simp [Has, none]

theorem add?_spec {s t : Dest} {c : Char} (h : s.add? c = some t) :
    ¬ s.Has c ∧ ∀ x, t.Has x ↔ s.Has x ∨ x = c := by
  unfold add? at h
  split at h
  case h_4 => cases h
  all_goals
    split at h
    next => cases h
    next hfree =>
      cases h
      simp only [Has]
      grind

theorem exists_add? {s t : Dest} {c : Char} (hletter : t.Has c) (hfree : ¬ s.Has c) :
    ∃ u, s.add? c = some u := by
  rcases hletter with ⟨rfl, -⟩ | ⟨rfl, -⟩ | ⟨rfl, -⟩
  all_goals
    simp only [Has, Char.reduceEq, true_and, false_and, false_or, or_false] at hfree
    exact ⟨_, if_neg hfree⟩

/-- Letters are added one by one as long as each is new. -/
theorem foldlM_add?_eq_some_iff {s t : Dest} {letters : List Char} :
    letters.foldlM add? s = some t ↔
      letters.Nodup ∧ (∀ c ∈ letters, ¬ s.Has c) ∧ ∀ c, t.Has c ↔ s.Has c ∨ c ∈ letters := by
  induction letters generalizing s with
  | nil =>
    simp only [List.foldlM_nil, List.nodup_nil, List.not_mem_nil, or_false, true_and]
    constructor
    · rintro ⟨⟩
      exact ⟨fun _ h => h.elim, fun _ => Iff.rfl⟩
    · exact fun h => congrArg some (ext_has fun c => (h.2 c).symm)
  | cons x letters ih =>
    rw [List.foldlM_cons]
    simp only [Option.bind_eq_bind, Option.bind_eq_some_iff, ih, List.nodup_cons, List.mem_cons]
    constructor
    · rintro ⟨u, hu, hnodup, hnew, hall⟩
      obtain ⟨hfree, hmore⟩ := add?_spec hu
      grind
    · rintro ⟨⟨hx, hnodup⟩, hnew, hall⟩
      obtain ⟨u, hu⟩ := exists_add? ((hall x).2 (.inr (.inl rfl))) (hnew x (.inl rfl))
      obtain ⟨-, hmore⟩ := add?_spec hu
      refine ⟨u, hu, hnodup, ?_, ?_⟩ <;> grind

theorem ofText?_eq_some_iff {s : Dest} {letters : List Char} :
    ofText? letters = some s ↔ s.SpelledBy letters := by
  unfold ofText? SpelledBy
  split
  next hempty => simp [List.isEmpty_iff.1 hempty]
  next hne =>
    rw [List.isEmpty_iff] at hne
    rw [foldlM_add?_eq_some_iff]
    simp only [has_none, false_or, not_false_eq_true, implies_true, true_and, hne, ne_eq]
    simp only [iff_comm]

theorem SpelledBy.chars {s : Dest} {letters : List Char} (h : s.SpelledBy letters) :
    ∀ c ∈ letters, c ∉ ['=', '(', '@'] := by
  intro c hc
  rcases (h.2.2 c).1 hc with ⟨rfl, -⟩ | ⟨rfl, -⟩ | ⟨rfl, -⟩ <;> decide

end Dest

namespace Comp

theorem ofText?_eq_some_iff {s : String} {comp : Comp} : ofText? s = some comp ↔ s ∈ comp.spellings := by
  constructor
  · intro h
    simpa using List.find?_some h
  · -- No text is a spelling of two computations.
    have h : ∀ comp ∈ all, ∀ s ∈ comp.spellings, ofText? s = some comp := by
      decide
    exact h comp (mem_all comp) s

theorem spelling_chars {s : String} {comp : Comp} (h : s ∈ comp.spellings) :
    s.toList ≠ [] ∧ ∀ c ∈ s.toList, c ∉ ['=', ';', '(', '@'] := by
  have hall : ∀ comp ∈ all, ∀ s ∈ comp.spellings,
      s.toList ≠ [] ∧ s.toList.all fun c => c ∉ ['=', ';', '(', '@'] := by
    decide
  obtain ⟨hne, hchars⟩ := hall comp (mem_all comp) s h
  exact ⟨hne, List.all_iff_forall_prop.1 hchars⟩

def exchanged? (comp : Comp) : Option String :=
  match comp.text.toList with
  | [left, sign, right] =>
    if sign ∈ ['+', '&', '|'] then some (String.ofList [right, sign, left]) else none
  | _ => none

theorem mem_spellings_iff {s : String} {comp : Comp} :
    s ∈ comp.spellings ↔ s = comp.text ∨ comp.exchanged? = some s := by
  have hall : ∀ comp ∈ all, comp.spellings = comp.text :: comp.exchanged?.toList := by
    decide
  rw [hall comp (mem_all comp), List.mem_cons, Option.mem_toList]

end Comp

theorem Jump.ofText?_eq_some_iff {s : String} {jump : Jump} :
    ofText? s = some jump ↔ jump ≠ .never ∧ jump.text = s := by
  constructor
  · intro h
    refine ⟨?_, by simpa using List.find?_some h⟩
    rintro rfl
    exact absurd (List.mem_of_find?_eq_some h) (by decide)
  · rintro ⟨hjump, rfl⟩
    exact ofText?_text hjump

namespace Assembly

/-- What may stand before a computation: nothing, or a destination and an equals sign. -/
def DestPart (dest : Dest) (text : List Char) : Prop :=
  text = [] ∧ dest = .none ∨ ∃ letters, text = letters ++ ['='] ∧ dest.SpelledBy letters

def JumpPart (jump : Jump) (text : List Char) : Prop :=
  text = [] ∧ jump = .never ∨ text = ';' :: jump.text.toList ∧ jump ≠ .never

def Statement.SpelledBy (text : List Char) : Statement → Prop
  | .label name => text = '(' :: (name.toList ++ [')']) ∧ isSymbol name.toList
  | .symbol name => text = '@' :: name.toList ∧ isSymbol name.toList
  | .value v => ∃ digits, text = '@' :: digits ∧ digits ≠ [] ∧ (∀ c ∈ digits, c.isDigit) ∧
      Nat.ofDigits 10 (digits.reverse.map fun c => c.toNat - '0'.toNat) = v.toNat ∧ v.toNat ≤ 32767
  | .compute c => ∃ before spelling after, text = before ++ (spelling ++ after) ∧
      DestPart c.dest before ∧ String.ofList spelling ∈ c.comp.spellings ∧ JumpPart c.jump after

def Vacant (line : List Char) : Prop := ∃ part, UpToComment line part ∧ squeeze part = []

def Says (line : List Char) (s : Statement) : Prop :=
  ∃ part, UpToComment line part ∧ s.SpelledBy (squeeze part)

def Grammatical (line : List Char) : Prop := Vacant line ∨ ∃ s, Says line s

def SaysInstruction (line : List Char) : Prop := ∃ s, Says line s ∧ s.isInstruction

section Readers

variable {text : List Char} {s : Statement}

theorem start_of_spelledBy {c : Compute} (h : (Statement.compute c).SpelledBy text) :
    ∃ x rest, text = x :: rest ∧ x ≠ '(' ∧ x ≠ '@' := by
  obtain ⟨before, spelling, after, rfl, hbefore, hspelling, -⟩ := h
  obtain ⟨hne, hchars⟩ := Comp.spelling_chars hspelling
  rw [String.toList_ofList] at hne hchars
  obtain ⟨rfl, -⟩ | ⟨letters, rfl, hletters⟩ := hbefore
  · exact Statement.cons_of_forall hne (fun x hx hmem => hchars x hx (by simp_all)) _
  · refine Statement.cons_of_forall (by simp) (List.forall_mem_append.2
      ⟨fun x hx hmem => ?_, List.all_iff_forall_prop.1 (by decide)⟩) _
    exact hletters.chars x hx (List.mem_cons_of_mem _ hmem)

theorem readLabel_eq_ok_iff : readLabel text = .ok s ↔ s.SpelledBy ('(' :: text) := by
  unfold readLabel
  constructor
  · intro h
    split at h
    next hlast =>
      obtain ⟨name, rfl⟩ := List.getLast?_eq_some_iff.1 hlast
      simp only [List.dropLast_concat] at h
      split at h
      next hname =>
        cases h
        rw [Statement.SpelledBy, String.toList_ofList]
        exact ⟨rfl, hname⟩
      next => cases h
    next => cases h
  · intro h
    cases s with
    | label name =>
      obtain ⟨htext, hname⟩ := h
      rw [(List.cons.inj htext).2, List.getLast?_concat, List.dropLast_concat, if_pos rfl,
        if_pos hname, String.ofList_toList]
    | symbol name => cases h.1
    | value v =>
      obtain ⟨digits, htext, -⟩ := h
      cases htext
    | compute c =>
      obtain ⟨x, rest, htext, hx, -⟩ := start_of_spelledBy h
      exact absurd (List.cons.inj htext).1.symm hx

theorem readAddress_eq_ok_iff : readAddress text = .ok s ↔ s.SpelledBy ('@' :: text) := by
  have hmaxLiteral : Word.maxLiteral = 32767 := rfl
  have hmaxConstant : maxConstant = 4294967295 := rfl
  unfold readAddress
  constructor
  · intro h
    split at h
    next n hvalue =>
      split at h
      next => cases h
      next =>
        split at h
        next => cases h
        next hsmall =>
          cases h
          obtain ⟨hne, hdigits, hn⟩ := Decimal.value?_eq_some_iff.1 hvalue
          have htoNat : n.toUInt16.toNat = n := UInt16.toNat_ofNat_of_lt' (by
            have hsize : UInt16.size = 65536 := rfl
            omega)
          exact ⟨text, rfl, hne, hdigits, by rw [htoNat, hn], by omega⟩
    next =>
      split at h
      next hname =>
        cases h
        rw [Statement.SpelledBy, String.toList_ofList]
        exact ⟨rfl, hname⟩
      next => cases h
  · intro h
    cases s with
    | label name => cases h.1
    | symbol name =>
      obtain ⟨htext, hname⟩ := h
      simp only [(List.cons.inj htext).2, Decimal.value?_symbol hname, if_pos hname,
        String.ofList_toList]
    | value v =>
      obtain ⟨digits, htext, hne, hdigits, hv, hmax⟩ := h
      cases htext
      have hfits : ¬ maxConstant < v.toNat := by omega
      have hsmall : ¬ Word.maxLiteral < v.toNat := by omega
      simp only [Decimal.value?_eq_some_iff.2 ⟨hne, hdigits, hv⟩, if_neg hfits, if_neg hsmall]
      rw [Nat.toUInt16_eq, UInt16.ofNat_toNat]
    | compute c =>
      obtain ⟨x, rest, htext, -, hx⟩ := start_of_spelledBy h
      exact absurd (List.cons.inj htext).1.symm hx

theorem readDest_of_part {dest : Dest} {before rest : List Char} (h : DestPart dest before)
    (hrest : '=' ∉ rest) : readDest (before ++ rest) = .ok (dest, rest) := by
  unfold readDest
  obtain ⟨rfl, rfl⟩ | ⟨letters, rfl, hletters⟩ := h
  · rw [List.nil_append, cutAt?_none hrest]
  · have hno : '=' ∉ letters := fun hmem => hletters.chars _ hmem (by decide)
    rw [List.append_assoc, List.singleton_append, cutAt?_append hno]
    simp only [Dest.ofText?_eq_some_iff.2 hletters]

theorem part_of_readDest {dest : Dest} {rest : List Char} (h : readDest text = .ok (dest, rest)) :
    ∃ before, text = before ++ rest ∧ DestPart dest before := by
  unfold readDest at h
  split at h
  next =>
    cases h
    exact ⟨[], rfl, .inl ⟨rfl, rfl⟩⟩
  next letters tail hcut =>
    obtain ⟨-, rfl⟩ := cutAt?_eq_some_iff.1 hcut
    split at h
    next hletters =>
      cases h
      exact ⟨letters ++ ['='], by simp, .inr ⟨letters, rfl, Dest.ofText?_eq_some_iff.1 hletters⟩⟩
    next => cases h

theorem readJump_of_part {jump : Jump} {spelling after : List Char} (h : JumpPart jump after)
    (hspelling : ';' ∉ spelling) : readJump (spelling ++ after) = .ok (jump, spelling) := by
  unfold readJump
  obtain ⟨rfl, rfl⟩ | ⟨rfl, hjump⟩ := h
  · rw [List.append_nil, cutAt?_none hspelling]
  · rw [cutAt?_append hspelling]
    simp only [String.ofList_toList, Jump.ofText?_text hjump]

theorem part_of_readJump {jump : Jump} {spelling : List Char}
    (h : readJump text = .ok (jump, spelling)) :
    ∃ after, text = spelling ++ after ∧ JumpPart jump after := by
  unfold readJump at h
  split at h
  next =>
    cases h
    exact ⟨[], (List.append_nil _).symm, .inl ⟨rfl, rfl⟩⟩
  next before mnemonic hcut =>
    obtain ⟨-, rfl⟩ := cutAt?_eq_some_iff.1 hcut
    split at h
    next hmnemonic =>
      cases h
      obtain ⟨hjump, htext⟩ := Jump.ofText?_eq_some_iff.1 hmnemonic
      rw [← String.toList_ofList (l := mnemonic), ← htext]
      exact ⟨_, rfl, .inr ⟨rfl, hjump⟩⟩
    next => cases h

theorem JumpPart.chars {jump : Jump} {after : List Char} (h : JumpPart jump after) : '=' ∉ after := by
  obtain ⟨rfl, -⟩ | ⟨rfl, -⟩ := h
  · exact List.not_mem_nil
  · refine List.not_mem_cons_of_ne_of_not_mem (by decide) fun hmem => ?_
    exact (jump.text_chars _ hmem).2 rfl

theorem readCompute_eq_ok_iff :
    readCompute text = .ok s ↔ s.SpelledBy text ∧ ∃ c, s = .compute c := by
  constructor
  · intro h
    obtain ⟨⟨dest, rest⟩, hdest, hrest⟩ := bind_eq_ok h
    obtain ⟨⟨jump, spelling⟩, hjump, hcompute⟩ := bind_eq_ok hrest
    obtain ⟨before, rfl, hbefore⟩ := part_of_readDest hdest
    obtain ⟨after, rfl, hafter⟩ := part_of_readJump hjump
    dsimp only at hcompute
    split at hcompute
    next hcomp =>
      cases hcompute
      exact ⟨⟨before, spelling, after, rfl, hbefore, Comp.ofText?_eq_some_iff.1 hcomp, hafter⟩, _, rfl⟩
    next => cases hcompute
  · rintro ⟨h, c, rfl⟩
    obtain ⟨before, spelling, after, rfl, hbefore, hspelling, hafter⟩ := h
    have hchars := (Comp.spelling_chars hspelling).2
    rw [String.toList_ofList] at hchars
    have hequals : '=' ∉ spelling ++ after := by
      rw [List.mem_append, not_or]
      exact ⟨fun hmem => hchars _ hmem (by decide), hafter.chars⟩
    have hsemicolon : ';' ∉ spelling := fun hmem => hchars _ hmem (by decide)
    simp only [readCompute, bind, Except.bind, readDest_of_part hbefore hequals,
      readJump_of_part hafter hsemicolon, Comp.ofText?_eq_some_iff.2 hspelling]

theorem not_spelledBy_nil : ¬ s.SpelledBy [] := by
  intro h
  cases s with
  | label name => cases h.1
  | symbol name => cases h.1
  | value v =>
    obtain ⟨digits, htext, -⟩ := h
    cases htext
  | compute c =>
    obtain ⟨x, rest, htext, -⟩ := start_of_spelledBy h
    cases htext

/-- A text that starts neither a label nor an address can only spell a computation. -/
theorem compute_of_spelledBy (h : s.SpelledBy text) (hlabel : ∀ rest, text ≠ '(' :: rest)
    (haddress : ∀ rest, text ≠ '@' :: rest) : ∃ c, s = .compute c := by
  cases s with
  | label name => exact absurd h.1 (hlabel _)
  | symbol name => exact absurd h.1 (haddress _)
  | value v =>
    obtain ⟨digits, htext, -⟩ := h
    exact absurd htext (haddress _)
  | compute c => exact ⟨c, rfl⟩

end Readers

section Lines

variable {line : List Char}

theorem says_iff {s : Statement} : Says line s ↔ readLine line = .ok (some s) := by
  have hmap (x : Except Malformed Statement) : some <$> x = .ok (some s) ↔ x = .ok s := by
    cases x <;> simp [Functor.map, Except.map]
  simp only [Says, upToComment_iff, exists_eq_left]
  unfold readLine
  split
  next hempty =>
    rw [hempty]
    exact iff_of_false not_spelledBy_nil (by simp)
  next text htext => rw [hmap, readLabel_eq_ok_iff, htext]
  next operand hoperand => rw [hmap, readAddress_eq_ok_iff, hoperand]
  next text hlabel haddress =>
    rw [hmap, readCompute_eq_ok_iff]
    exact ⟨fun h => ⟨h, compute_of_spelledBy h hlabel haddress⟩, And.left⟩

theorem vacant_iff : Vacant line ↔ readLine line = .ok none := by
  have hmap (x : Except Malformed Statement) : some <$> x ≠ .ok none := by
    cases x <;> simp [Functor.map, Except.map]
  simp only [Vacant, upToComment_iff, exists_eq_left]
  unfold readLine
  split
  next hempty => exact iff_of_true hempty rfl
  next text htext => exact iff_of_false (by simp [htext]) (hmap _)
  next operand hoperand => exact iff_of_false (by simp [hoperand]) (hmap _)
  next text hne _ _ => exact iff_of_false hne (hmap _)

theorem grammatical_iff : Grammatical line ↔ ∃ s, readLine line = .ok s := by
  rw [Grammatical, vacant_iff, Option.exists]
  simp only [says_iff]

instance : Decidable (Grammatical line) :=
  decidable_of_iff ((readLine line).isOk) (by
    rw [grammatical_iff]
    cases readLine line <;> simp [Except.isOk, Except.toBool])

def statement? (line : List Char) : Option Statement := (readLine line).toOption.join

theorem statement?_eq_some_iff {s : Statement} : statement? line = some s ↔ Says line s := by
  rw [says_iff, statement?]
  cases readLine line <;> simp [Except.toOption]

theorem saysInstruction_iff :
    SaysInstruction line ↔ (statement? line).any Statement.isInstruction := by
  simp only [SaysInstruction, ← statement?_eq_some_iff, Option.any_eq_true]

instance : Decidable (SaysInstruction line) := decidable_of_iff _ saysInstruction_iff.symm

theorem says_squeeze_iff {s : Statement} :
    Says line s ↔ s.SpelledBy (squeeze (beforeComment line)) := by
  simp only [Says, upToComment_iff, exists_eq_left]

theorem vacant_squeeze_iff : Vacant line ↔ squeeze (beforeComment line) = [] := by
  simp only [Vacant, upToComment_iff, exists_eq_left]

theorem Reading.next_of_error {cause : Malformed} (h : readLine line = .error cause) (r : Reading)
    (n : Nat) : r.next (line, n) = { r with errors := r.errors.push (.malformed n cause) } := by
  simp only [next, h]

theorem Reading.errors_next_of_ok {s : Option Statement} (h : readLine line = .ok s) (r : Reading)
    (n : Nat) : (r.next (line, n)).errors = r.errors := by
  cases s <;> simp only [next, h]

/-- A line is refused, under its number, exactly if it is not in the grammar. -/
theorem Reading.refused_iff (r : Reading) (n : Nat) :
    (∃ cause, r.next (line, n) = { r with errors := r.errors.push (.malformed n cause) }) ↔
      ¬ Grammatical line := by
  rw [grammatical_iff]
  constructor
  · rintro ⟨cause, hnext⟩ ⟨s, hline⟩
    have hsize := congrArg (fun r => r.errors.size) hnext
    simp [errors_next_of_ok hline] at hsize
  · intro hnot
    cases hline : readLine line with
    | ok s => exact absurd ⟨s, hline⟩ hnot
    | error cause => exact ⟨cause, next_of_error hline r n⟩

/-- What a line is read as. Its text is what stands before the first two slashes, without white space. The
number of a line is that of its statement or of its error. -/
theorem readLine_accepts_exactly (line : List Char) :
    ∃ part text, (∀ p, UpToComment line p ↔ p = part) ∧ text = part.filter (fun c => !isBlank c) ∧
      (readLine line = .ok none ↔ text = []) ∧
      (∀ name, readLine line = .ok (some (.label name)) ↔
        text = '(' :: (name.toList ++ [')']) ∧ isSymbol name.toList) ∧
      (∀ v, readLine line = .ok (some (.value v)) ↔
        ∃ digits, text = '@' :: digits ∧ digits ≠ [] ∧ (∀ c ∈ digits, c.isDigit) ∧
          Nat.ofDigits 10 (digits.reverse.map fun c => c.toNat - '0'.toNat) = v.toNat ∧
          v.toNat ≤ 32767) ∧
      (∀ name, readLine line = .ok (some (.symbol name)) ↔
        text = '@' :: name.toList ∧ isSymbol name.toList) ∧
      (∀ dest comp jump, readLine line = .ok (some (.compute ⟨dest, comp, jump⟩)) ↔
        ∃ before spelling after, text = before ++ (spelling.toList ++ after) ∧ DestPart dest before ∧
          (spelling = comp.text ∨ comp.exchanged? = some spelling) ∧ JumpPart jump after) ∧
      (∀ (r : Reading) (n : Nat),
        (∀ s, readLine line = .ok (some s) →
          r.next (line, n) = { r with statements := r.statements.push ⟨n, s⟩ }) ∧
        ((∃ cause, r.next (line, n) = { r with errors := r.errors.push (.malformed n cause) }) ↔
          text ≠ [] ∧ ∀ s : Statement, ¬ s.SpelledBy text)) ∧
      (∀ comp, comp ∈ Comp.all) ∧ Comp.all.length = 28 ∧
      (Comp.all.filterMap Comp.exchanged?).length = 9 := by
  have hform (s : Statement) : readLine line = .ok (some s) ↔ s.SpelledBy (squeeze (beforeComment line)) :=
    says_iff.symm.trans says_squeeze_iff
  refine ⟨beforeComment line, squeeze (beforeComment line), fun p => upToComment_iff, rfl,
    vacant_iff.symm.trans vacant_squeeze_iff, fun name => hform _, fun v => hform _, fun name => hform _,
    fun dest comp jump => ?_, fun r n => ⟨fun s hs => by simp only [Reading.next, hs], ?_⟩,
    Comp.mem_all, rfl, by decide⟩
  · rw [hform]
    constructor
    · rintro ⟨before, spelling, after, htext, hdest, hcomp, hjump⟩
      refine ⟨before, String.ofList spelling, after, ?_, hdest, Comp.mem_spellings_iff.1 hcomp, hjump⟩
      rw [htext, String.toList_ofList]
    · rintro ⟨before, spelling, after, htext, hdest, hcomp, hjump⟩
      refine ⟨before, spelling.toList, after, htext, hdest, ?_, hjump⟩
      rw [String.ofList_toList]
      exact Comp.mem_spellings_iff.2 hcomp
  · rw [Reading.refused_iff, Grammatical, not_or, not_exists, vacant_squeeze_iff]
    simp only [says_squeeze_iff, ne_eq]

end Lines

end Assembly

end HackStack
