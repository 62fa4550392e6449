import HackStack.Command.Reader
import HackStack.Proofs.Words
import Mathlib.Data.List.Induction
import Mathlib.Data.Nat.Digits.Defs

set_option autoImplicit false

namespace HackStack

open Text

theorem isSymbolChar_of_start {c : Char} (h : isSymbolStart c) : isSymbolChar c := by
  simp only [isSymbolStart, isSymbolChar, Char.isAlphanum, Bool.or_eq_true] at h ⊢
  exact h.imp_left Or.inl

theorem isSymbol_all {name : List Char} (h : isSymbol name) : name.all isSymbolChar := by
  cases name with
  | nil => rfl
  | cons c rest =>
    simp only [isSymbol, Bool.and_eq_true] at h
    simp only [List.all_cons, isSymbolChar_of_start h.1, h.2, Bool.and_self]

theorem isSymbol_append {name rest : List Char} (h : isSymbol name) (hrest : rest.all isSymbolChar) :
    isSymbol (name ++ rest) := by
  cases name with
  | nil => cases h
  | cons c name =>
    simp only [isSymbol, Bool.and_eq_true] at h
    simp only [List.cons_append, isSymbol, List.all_append, h.1, h.2, hrest, Bool.and_self]

theorem Decimal.value_eq_ofDigits (cs : List Char) :
    value cs = Nat.ofDigits 10 (cs.reverse.map fun c => c.toNat - '0'.toNat) := by
  induction cs using List.reverseRecOn with
  | nil => rfl
  | append_singleton cs c ih =>
    rw [value_append_digit, List.reverse_concat, List.map_cons, Nat.ofDigits_cons, ← ih, Nat.add_comm]
    rfl

theorem Decimal.value?_eq_some_iff {cs : List Char} {n : Nat} :
    value? cs = some n ↔ cs ≠ [] ∧ (∀ c ∈ cs, c.isDigit) ∧
      Nat.ofDigits 10 (cs.reverse.map fun c => c.toNat - '0'.toNat) = n := by
  rw [← value_eq_ofDigits, value?, isNumeral]
  simp [and_assoc]

theorem Segment.ofText?_eq_some_iff {s : String} {segment : Segment} :
    ofText? s = some segment ↔ segment.text = s := by
  constructor
  · intro h
    simpa using List.find?_some h
  · rintro rfl
    cases segment <;> rfl

theorem Operation.ofText?_eq_some_iff {s : String} {op : Operation} :
    ofText? s = some op ↔ op.text = s := by
  constructor
  · intro h
    simpa using List.find?_some h
  · rintro rfl
    cases op <;> rfl

def Segment.Admits (segment : Segment) (index : Word) : Prop :=
  index.toNat ≤ Word.maxLiteral ∧
    ∀ capacity, segment.capacity? = some capacity → index.toNat < capacity

instance (segment : Segment) (index : Word) : Decidable (segment.Admits index) :=
  inferInstanceAs (Decidable (index.toNat ≤ Word.maxLiteral ∧
    ∀ capacity ∈ segment.capacity?, index.toNat < capacity))

namespace Command

def WellFormed : Command → Prop
  | .push segment index => segment.Admits index
  | .pop segment index => segment ≠ .constant ∧ segment.Admits index
  | .label name | .goto name | .ifGoto name => isSymbol name.toList
  | .function name count | .call name count =>
    isSymbol name.toList ∧ count.toNat ≤ Word.maxLiteral
  | .operate _ | .ret => True

instance (c : Command) : Decidable c.WellFormed :=
  match c with
  | .push segment index => inferInstanceAs (Decidable (segment.Admits index))
  | .pop segment index => inferInstanceAs (Decidable (segment ≠ .constant ∧ segment.Admits index))
  | .label name | .goto name | .ifGoto name => inferInstanceAs (Decidable (isSymbol name.toList))
  | .function name count | .call name count =>
    inferInstanceAs (Decidable (isSymbol name.toList ∧ count.toNat ≤ Word.maxLiteral))
  | .operate _ | .ret => inferInstanceAs (Decidable True)

/-- A word is a number: decimal digits in any number, which may follow a plus sign. -/
def IsNumber (word : List Char) (n : Nat) : Prop :=
  ∃ digits : List Char, (word = digits ∨ word = '+' :: digits) ∧ digits ≠ [] ∧
    (∀ c ∈ digits, c.isDigit) ∧ Nat.ofDigits 10 (digits.reverse.map fun c => c.toNat - '0'.toNat) = n

def InRange (segment : Segment) (n : Nat) : Prop :=
  n ≤ 32767 ∧ (segment = .pointer → n < 2) ∧ (segment = .temp → n < 8)

theorem admits_iff {segment : Segment} {index : Word} :
    segment.Admits index ↔ InRange segment index.toNat := by
  cases segment <;> simp [Segment.Admits, InRange, Segment.capacity?, Word.maxLiteral]

def Operands (scope : Option String) (operands : List (List Char)) : Command → Prop
  | .operate _ | .ret => operands = []
  | .push segment index =>
    ∃ number, operands = [segment.text.toList, number] ∧ IsNumber number index.toNat ∧
      InRange segment index.toNat
  | .pop segment index =>
    ∃ number, operands = [segment.text.toList, number] ∧ IsNumber number index.toNat ∧
      InRange segment index.toNat ∧ segment ≠ .constant
  | .label name | .goto name | .ifGoto name =>
    ∃ word, operands = [word] ∧ isSymbol word ∧
      name = (scope.elim "" (· ++ "$")) ++ String.ofList word
  | .function name count | .call name count =>
    ∃ number, operands = [name.toList, number] ∧ isSymbol name.toList ∧
      IsNumber number count.toNat ∧ count.toNat ≤ 32767

def Denotes (scope : Option String) (words : List (List Char)) (c : Command) : Prop :=
  ∃ operands, words = c.keyword.toList :: operands ∧ Operands scope operands c

theorem qualify_eq (scope : Option String) (name : String) :
    qualify scope name = scope.elim "" (· ++ "$") ++ name := by
  cases scope with
  | none => simp [qualify]
  | some f => rfl

theorem qualify_symbol {scope : Option String} (hscope : ∀ f ∈ scope, isSymbol f.toList)
    {name : String} (hname : isSymbol name.toList) : isSymbol (qualify scope name).toList := by
  cases scope with
  | none => exact hname
  | some f =>
    simp only [qualify, String.toList_append, List.append_assoc]
    refine isSymbol_append (hscope f rfl) ?_
    rw [List.all_append, isSymbol_all hname]
    rfl

theorem Denotes.wellFormed {scope : Option String} (hscope : ∀ f ∈ scope, isSymbol f.toList)
    {ws : List (List Char)} {c : Command} (h : Denotes scope ws c) : c.WellFormed := by
  obtain ⟨operands, -, h⟩ := h
  cases c with
  | push segment index =>
    obtain ⟨number, -, -, hrange⟩ := h
    exact admits_iff.2 hrange
  | pop segment index =>
    obtain ⟨number, -, -, hrange, hsegment⟩ := h
    exact ⟨hsegment, admits_iff.2 hrange⟩
  | label name | goto name | ifGoto name =>
    obtain ⟨word, -, hword, rfl⟩ := h
    rw [← qualify_eq]
    exact qualify_symbol hscope (String.toList_ofList ▸ hword)
  | function name count | call name count =>
    obtain ⟨number, -, hname, -, hcount⟩ := h
    exact ⟨hname, hcount⟩
  | operate op | ret => trivial

/-- The limits that a command with this keyword can break with its first operand and its number. -/
def Exceeds (operand : List Char) (n : Nat) : String → Prop
  | "push" => ∃ segment : Segment, operand = segment.text.toList ∧ ¬ InRange segment n
  | "pop" => ∃ segment : Segment, operand = segment.text.toList ∧
      (segment = .constant ∨ ¬ InRange segment n)
  | "function" | "call" => isSymbol operand ∧ 32767 < n
  | _ => False

/-- Words have the form of a command with a number of sixteen bits, and break a limit. -/
def Oversteps (words : List (List Char)) : Prop :=
  ∃ (keyword : String) (operand number : List Char) (n : Nat),
    words = [keyword.toList, operand, number] ∧ IsNumber number n ∧ n ≤ 65535 ∧
      Exceeds operand n keyword

/-- How a reading ends: the values that it can give, and whether it complains about an operand. Every
other reading complains about the form. -/
structure Ends {α : Type} (x : Except Malformed α) (gives : α → Prop) (oversteps : Prop) : Prop where
  ok : ∀ a, x = .ok a ↔ gives a
  operand : (∃ cause, x = .error cause ∧ cause.isOperand) ↔ oversteps

namespace Ends

variable {α β : Type} {x : Except Malformed α} {P P' : α → Prop} {Q Q' : Prop}

theorem congr (h : Ends x P Q) (hP : ∀ a, P a ↔ P' a) (hQ : Q ↔ Q') : Ends x P' Q' :=
  ⟨fun a => (h.ok a).trans (hP a), h.operand.trans hQ⟩

theorem found {a : α} (hP : ∀ b, P b ↔ b = a) (hQ : ¬ Q) : Ends (.ok a) P Q :=
  ⟨fun b => by rw [hP, Except.ok.injEq, eq_comm], by simp [hQ]⟩

theorem failed {cause : Malformed} (hP : ∀ a, ¬ P a) (hQ : cause.isOperand ↔ Q) :
    Ends (.error cause) P Q :=
  ⟨fun a => by simp [hP a], by simp [hQ]⟩

theorem bind (h : Ends x P Q) {f : α → Except Malformed β} {R : α → β → Prop} {S : α → Prop}
    (hf : ∀ a, P a → Ends (f a) (R a) (S a)) :
    Ends (x >>= f) (fun b => ∃ a, P a ∧ R a b) (Q ∨ ∃ a, P a ∧ S a) := by
  cases x with
  | ok a =>
    have ha : ∀ b, P b ↔ b = a := fun b => by rw [← h.ok, Except.ok.injEq, eq_comm]
    have hQ : ¬ Q := fun hq => by simpa using h.operand.2 hq
    exact (hf a ((ha a).2 rfl)).congr (fun b => by simp [ha]) (by simp [ha, hQ])
  | error cause =>
    have ha : ∀ a, ¬ P a := fun a hP => by simpa using (h.ok a).2 hP
    have hQ : cause.isOperand ↔ Q := by rw [← h.operand]; simp
    exact failed (fun b => by simp [ha]) (by simp [ha, hQ])

theorem map (h : Ends x P Q) (f : α → β) : Ends (f <$> x) (fun b => ∃ a, P a ∧ b = f a) Q := by
  have hbind := h.bind (f := fun a => .ok (f a)) fun a _ => found (fun _ => Iff.rfl) not_false
  exact hbind.congr (fun b => Iff.rfl) (by simp)

theorem form (h : Ends x P Q) :
    (∃ cause, x = .error cause ∧ ¬ cause.isOperand) ↔ (∀ a, ¬ P a) ∧ ¬ Q := by
  rw [← h.operand]
  simp only [← h.ok]
  cases x with
  | ok a => simp
  | error cause => simp

end Ends

section Located

variable {α : Type} {x : Except Malformed α} {location : Location}

theorem mapError_eq_ok_iff {a : α} :
    x.mapError (·.toError location) = .ok a ↔ x = .ok a := by
  cases x with
  | ok b => simp [Except.mapError]
  | error cause => simp [Except.mapError]

theorem mapError_operand_iff :
    (∃ message, x.mapError (·.toError location) = .error (.operand message location)) ↔
      ∃ cause, x = .error cause ∧ cause.isOperand := by
  cases x with
  | ok b => simp [Except.mapError]
  | error cause => cases h : cause.isOperand <;> simp [Except.mapError, Malformed.toError, h]

theorem mapError_parse_iff :
    (∃ message, x.mapError (·.toError location) = .error (.parse message location)) ↔
      ∃ cause, x = .error cause ∧ ¬ cause.isOperand := by
  cases x with
  | ok b => simp [Except.mapError]
  | error cause => cases h : cause.isOperand <;> simp [Except.mapError, Malformed.toError, h]

end Located

theorem unsigned?_eq_some_iff {word : List Char} {n : Nat} :
    Decimal.unsigned? word = some n ↔ IsNumber word n := by
  constructor
  · intro h
    unfold Decimal.unsigned? at h
    split at h
    next cs => exact ⟨cs, .inr rfl, Decimal.value?_eq_some_iff.1 h⟩
    next => exact ⟨word, .inl rfl, Decimal.value?_eq_some_iff.1 h⟩
  · rintro ⟨digits, rfl | rfl, h⟩
    · unfold Decimal.unsigned?
      split
      next cs =>
        -- a plus sign is no digit
        exact absurd (h.2.1 '+' List.mem_cons_self) (by decide)
      next => exact Decimal.value?_eq_some_iff.2 h
    · exact Decimal.value?_eq_some_iff.2 h

theorem numberComplaint_form (word : List Char) : (numberComplaint word).isOperand = false := by
  unfold numberComplaint
  split
  · rfl
  · split
    · rfl
    · rfl

theorem readNumber_ends (word : List Char) :
    Ends (readNumber word) (fun i => IsNumber word i.toNat ∧ i.toNat ≤ 32767)
      (∃ n, IsNumber word n ∧ n ≤ 65535 ∧ 32767 < n) := by
  unfold readNumber
  cases hword : Decimal.unsigned? word with
  | none =>
    have hnone : ∀ n, ¬ IsNumber word n := fun n hn => by
      simp [unsigned?_eq_some_iff.2 hn] at hword
    exact .failed (fun i => by simp [hnone]) (by simp [hnone, numberComplaint_form])
  | some n =>
    have hn : ∀ k, IsNumber word k ↔ k = n := fun k => by
      rw [← unsigned?_eq_some_iff, hword, Option.some.injEq, eq_comm]
    have hmaxWord : maxWord = 65535 := rfl
    have hmaxLiteral : Word.maxLiteral = 32767 := rfl
    simp only [hn, exists_eq_left]
    by_cases hlong : maxWord < n
    · rw [if_pos hlong]
      refine .failed (fun i hi => by omega) ?_
      rw [numberComplaint_form]
      constructor
      · nofun
      · omega
    rw [if_neg hlong]
    by_cases hlarge : Word.maxLiteral < n
    · rw [if_pos hlarge]
      refine .failed (fun i hi => by omega) ⟨fun _ => by omega, fun _ => rfl⟩
    · have htoNat : n.toUInt16.toNat = n :=
        UInt16.toNat_ofNat_of_lt' (Nat.lt_succ_of_le (Nat.le_of_not_lt hlong))
      rw [if_neg hlarge]
      refine .found (fun i => ?_) (by omega)
      rw [← UInt16.toNat_inj, htoNat]
      omega

theorem readName_ends (word : List Char) :
    Ends (readName word) (fun name => isSymbol name.toList ∧ word = name.toList) False := by
  unfold readName
  by_cases hword : isSymbol word
  · rw [if_pos hword]
    refine .found (fun name => ?_) not_false
    constructor
    · rintro ⟨-, rfl⟩
      exact String.ofList_toList.symm
    · rintro rfl
      rw [String.toList_ofList]
      exact ⟨hword, rfl⟩
  · rw [if_neg hword]
    refine .failed (fun name hname => ?_) (by simp [Malformed.isOperand])
    exact hword (hname.2 ▸ hname.1)

theorem readSegment_ends (word : List Char) :
    Ends (readSegment word) (fun segment => word = segment.text.toList) False := by
  have hiff (segment : Segment) : Segment.ofText? (String.ofList word) = some segment ↔
      word = segment.text.toList := by
    rw [Segment.ofText?_eq_some_iff, String.ext_iff, String.toList_ofList, eq_comm]
  unfold readSegment
  cases hword : Segment.ofText? (String.ofList word) with
  | some segment =>
    refine .found (fun other => ?_) not_false
    rw [← hiff, hword, Option.some.injEq, eq_comm]
  | none =>
    refine .failed (fun segment => ?_) (by simp [Malformed.isOperand])
    rw [← hiff, hword]
    nofun

theorem checkIndex_ends (segment : Segment) (index : Word) (hindex : index.toNat ≤ 32767) :
    Ends (checkIndex segment index) (fun _ => InRange segment index.toNat)
      (¬ InRange segment index.toNat) := by
  have hrange : InRange segment index.toNat ↔
      ∀ capacity, segment.capacity? = some capacity → index.toNat < capacity :=
    admits_iff.symm.trans (and_iff_right hindex)
  unfold checkIndex
  cases hcapacity : segment.capacity? with
  | none =>
    simp only [hrange, hcapacity]
    exact .found (fun _ => by simp) (by simp)
  | some capacity =>
    simp only [hrange, hcapacity, Option.some.injEq, forall_eq']
    by_cases hle : capacity ≤ index.toNat
    · rw [if_pos hle]
      exact .failed (fun _ => Nat.not_lt.2 hle) (by simp [Malformed.isOperand, hle])
    · rw [if_neg hle]
      exact .found (fun _ => by simpa using hle) (by simpa using hle)

/-- A segment and a number, whatever is checked about the two afterwards. -/
theorem indexed_ends {f : Segment → Word → Except Malformed Command}
    {G : Segment → Word → Command → Prop} {B : Segment → Nat → Prop}
    (hsmall : ∀ segment index c, G segment index c → index.toNat ≤ 32767)
    (hlarge : ∀ segment n, 32767 < n → B segment n)
    (hf : ∀ segment index, index.toNat ≤ 32767 →
      Ends (f segment index) (G segment index) (B segment index.toNat)) (x y : List Char) :
    Ends (readSegment x >>= fun segment => readNumber y >>= f segment)
      (fun c => ∃ segment index, x = segment.text.toList ∧ IsNumber y index.toNat ∧ G segment index c)
      (∃ n, IsNumber y n ∧ n ≤ 65535 ∧
        ∃ segment : Segment, x = segment.text.toList ∧ B segment n) := by
  have hread := (readSegment_ends x).bind fun segment _ =>
    (readNumber_ends y).bind fun index hindex => hf segment index hindex.2
  refine hread.congr (fun c => ?_) ?_
  · constructor
    · rintro ⟨segment, hx, index, ⟨hn, -⟩, hG⟩
      exact ⟨segment, index, hx, hn, hG⟩
    · rintro ⟨segment, index, hx, hn, hG⟩
      exact ⟨segment, hx, index, ⟨hn, hsmall segment index c hG⟩, hG⟩
  · constructor
    · rintro (h | ⟨segment, hx, ⟨n, hn, hword, hlt⟩ | ⟨index, ⟨hn, hle⟩, hB⟩⟩)
      · exact h.elim
      · exact ⟨n, hn, hword, segment, hx, hlarge segment n hlt⟩
      · exact ⟨index.toNat, hn, by omega, segment, hx, hB⟩
    · rintro ⟨n, hn, hword, segment, hx, hB⟩
      refine .inr ⟨segment, hx, ?_⟩
      by_cases hlt : 32767 < n
      · exact .inl ⟨n, hn, hword, hlt⟩
      · have htoNat : n.toUInt16.toNat = n := UInt16.toNat_ofNat_of_lt' (Nat.lt_succ_of_le hword)
        refine .inr ⟨n.toUInt16, ?_, ?_⟩
        · rw [htoNat]
          exact ⟨hn, Nat.le_of_not_lt hlt⟩
        · rw [htoNat]
          exact hB

theorem not_inRange_of_lt {segment : Segment} {n : Nat} (h : 32767 < n) : ¬ InRange segment n :=
  fun hrange => Nat.not_le.2 h hrange.1

theorem readPush_ends (x y : List Char) :
    Ends (readPush x y)
      (fun c => ∃ segment index, x = segment.text.toList ∧ IsNumber y index.toNat ∧
        InRange segment index.toNat ∧ c = .push segment index)
      (∃ n, IsNumber y n ∧ n ≤ 65535 ∧ Exceeds x n "push") := by
  refine indexed_ends (fun _ _ _ h => h.1.1) (fun _ _ => not_inRange_of_lt)
    (fun segment index hindex => ?_) x y
  have hcheck := (checkIndex_ends segment index hindex).bind
    (f := fun _ => .ok (Command.push segment index)) fun _ _ => .found (fun _ => Iff.rfl) not_false
  exact hcheck.congr (fun c => by simp) (by simp)

theorem readPop_ends (x y : List Char) :
    Ends (readPop x y)
      (fun c => ∃ segment index, x = segment.text.toList ∧ IsNumber y index.toNat ∧
        InRange segment index.toNat ∧ segment ≠ .constant ∧ c = .pop segment index)
      (∃ n, IsNumber y n ∧ n ≤ 65535 ∧ Exceeds x n "pop") := by
  refine indexed_ends (fun _ _ _ h => h.1.1) (fun _ _ h => .inr (not_inRange_of_lt h))
    (fun segment index hindex => ?_) x y
  by_cases hconstant : segment = .constant
  · rw [if_pos hconstant]
    exact .failed (fun c => by simp [hconstant]) (by simp [Malformed.isOperand, hconstant])
  · rw [if_neg hconstant]
    have hcheck := (checkIndex_ends segment index hindex).bind
      (f := fun _ => .ok (Command.pop segment index)) fun _ _ => .found (fun _ => Iff.rfl) not_false
    exact hcheck.congr (fun c => by simp [hconstant]) (by simp [hconstant])

theorem readCounted_ends (make : String → Word → Command) (x y : List Char) :
    Ends (readCounted make x y)
      (fun c => ∃ name count, x = name.toList ∧ isSymbol name.toList ∧ IsNumber y count.toNat ∧
        count.toNat ≤ 32767 ∧ c = make name count)
      (∃ n, IsNumber y n ∧ n ≤ 65535 ∧ isSymbol x ∧ 32767 < n) := by
  have hread : Ends (readCounted make x y) _ _ := (readName_ends x).bind fun name _ =>
    (readNumber_ends y).bind fun count _ => .found (fun _ => Iff.rfl) not_false
  refine hread.congr (fun c => ?_) ?_
  · constructor
    · rintro ⟨name, ⟨hname, hx⟩, count, ⟨hn, hle⟩, rfl⟩
      exact ⟨name, count, hx, hname, hn, hle, rfl⟩
    · rintro ⟨name, count, hx, hname, hn, hle, rfl⟩
      exact ⟨name, ⟨hname, hx⟩, count, ⟨hn, hle⟩, rfl⟩
  · constructor
    · rintro (h | ⟨name, ⟨hname, rfl⟩, ⟨n, hn, hword, hlt⟩ | ⟨-, -, h⟩⟩)
      · exact h.elim
      · exact ⟨n, hn, hword, hname, hlt⟩
      · exact h.elim
    · rintro ⟨n, hn, hword, hname, hlt⟩
      refine .inr ⟨String.ofList x, ?_, .inl ⟨n, hn, hword, hlt⟩⟩
      rw [String.toList_ofList]
      exact ⟨hname, rfl⟩

theorem readLabelled_ends (scope : Option String) (make : String → Command) (x : List Char) :
    Ends (readLabelled scope make x)
      (fun c => isSymbol x ∧ c = make ((scope.elim "" (· ++ "$")) ++ String.ofList x)) False := by
  have hread : Ends (readLabelled scope make x) _ _ := (readName_ends x).bind fun name _ =>
    .found (fun _ => Iff.rfl) not_false
  refine hread.congr (fun c => ?_) (by simp)
  simp only [qualify_eq]
  constructor
  · rintro ⟨name, ⟨hname, rfl⟩, rfl⟩
    rw [String.ofList_toList]
    exact ⟨hname, rfl⟩
  · rintro ⟨hx, rfl⟩
    refine ⟨String.ofList x, ?_, rfl⟩
    rw [String.toList_ofList]
    exact ⟨hx, rfl⟩

theorem withNone_ends (keyword : String) (operands : List (List Char)) (c : Command) :
    Ends (withNone keyword operands c) (fun d => operands = [] ∧ d = c) False := by
  cases operands with
  | nil => exact .found (fun d => by simp) not_false
  | cons x xs => exact .failed (fun d => by simp) (by simp [Malformed.isOperand])

theorem withOne_ends (keyword : String) (operands : List (List Char))
    {read : List Char → Except Malformed Command} {P : List Char → Command → Prop}
    {Q : List Char → Prop} (hread : ∀ x, Ends (read x) (P x) (Q x)) :
    Ends (withOne keyword operands read) (fun c => ∃ x, operands = [x] ∧ P x c)
      (∃ x, operands = [x] ∧ Q x) := by
  unfold withOne
  split
  next x => exact (hread x).congr (fun c => by simp) (by simp)
  next hne =>
    have hshape : ∀ x, operands ≠ [x] := hne
    exact .failed (fun c => by simp [hshape]) (by simp [Malformed.isOperand, hshape])

theorem withTwo_ends (keyword : String) (operands : List (List Char))
    {read : List Char → List Char → Except Malformed Command}
    {P : List Char → List Char → Command → Prop} {Q : List Char → List Char → Prop}
    (hread : ∀ x y, Ends (read x y) (P x y) (Q x y)) :
    Ends (withTwo keyword operands read) (fun c => ∃ x y, operands = [x, y] ∧ P x y c)
      (∃ x y, operands = [x, y] ∧ Q x y) := by
  unfold withTwo
  split
  next x y =>
    refine (hread x y).congr (fun c => ?_) ?_
    · constructor
      · exact fun h => ⟨x, y, rfl, h⟩
      · rintro ⟨_, _, ⟨⟩, h⟩
        exact h
    · constructor
      · exact fun h => ⟨x, y, rfl, h⟩
      · rintro ⟨_, _, ⟨⟩, h⟩
        exact h
  next hne =>
    have hshape : ∀ x y, operands ≠ [x, y] := hne
    exact .failed (fun c => by simp [hshape]) (by simp [Malformed.isOperand, hshape])

theorem readKeyword_ok_iff (scope : Option String) {keyword : String} (operands : List (List Char))
    (hop : ∀ op : Operation, op.text ≠ keyword) (c : Command) :
    readKeyword scope keyword operands = .ok c ↔ c.keyword = keyword ∧ Operands scope operands c := by
  constructor
  · intro h
    unfold readKeyword at h
    split at h
    · obtain ⟨x, y, rfl, s, i, rfl, hn, hr, rfl⟩ := ((withTwo_ends _ _ readPush_ends).ok c).1 h
      exact ⟨rfl, y, rfl, hn, hr⟩
    · obtain ⟨x, y, rfl, s, i, rfl, hn, hr, hs, rfl⟩ := ((withTwo_ends _ _ readPop_ends).ok c).1 h
      exact ⟨rfl, y, rfl, hn, hr, hs⟩
    · obtain ⟨x, rfl, hx, rfl⟩ := ((withOne_ends _ _ (readLabelled_ends scope _)).ok c).1 h
      exact ⟨rfl, x, rfl, hx, rfl⟩
    · obtain ⟨x, rfl, hx, rfl⟩ := ((withOne_ends _ _ (readLabelled_ends scope _)).ok c).1 h
      exact ⟨rfl, x, rfl, hx, rfl⟩
    · obtain ⟨x, rfl, hx, rfl⟩ := ((withOne_ends _ _ (readLabelled_ends scope _)).ok c).1 h
      exact ⟨rfl, x, rfl, hx, rfl⟩
    · obtain ⟨x, y, rfl, f, k, rfl, hf, hn, hk, rfl⟩ :=
        ((withTwo_ends _ _ (readCounted_ends _)).ok c).1 h
      exact ⟨rfl, y, rfl, hf, hn, hk⟩
    · obtain ⟨x, y, rfl, f, k, rfl, hf, hn, hk, rfl⟩ :=
        ((withTwo_ends _ _ (readCounted_ends _)).ok c).1 h
      exact ⟨rfl, y, rfl, hf, hn, hk⟩
    · obtain ⟨rfl, rfl⟩ := ((withNone_ends _ _ _).ok c).1 h
      exact ⟨rfl, rfl⟩
    · cases h
  · rintro ⟨rfl, h⟩
    cases c with
    | operate op => exact absurd rfl (hop op)
    | push s i =>
      obtain ⟨y, rfl, hn, hr⟩ := h
      exact ((readPush_ends _ y).ok _).2 ⟨s, i, rfl, hn, hr, rfl⟩
    | pop s i =>
      obtain ⟨y, rfl, hn, hr, hs⟩ := h
      exact ((readPop_ends _ y).ok _).2 ⟨s, i, rfl, hn, hr, hs, rfl⟩
    | label name | goto name | ifGoto name =>
      obtain ⟨x, rfl, hx, rfl⟩ := h
      exact ((readLabelled_ends scope _ x).ok _).2 ⟨hx, rfl⟩
    | function name k | call name k =>
      obtain ⟨y, rfl, hf, hn, hk⟩ := h
      exact ((readCounted_ends _ _ y).ok _).2 ⟨name, k, rfl, hf, hn, hk, rfl⟩
    | ret =>
      cases h
      rfl

theorem readKeyword_operand_iff (scope : Option String) (keyword : String)
    (operands : List (List Char)) :
    (∃ cause, readKeyword scope keyword operands = .error cause ∧ cause.isOperand) ↔
      ∃ x y, operands = [x, y] ∧ ∃ n, IsNumber y n ∧ n ≤ 65535 ∧ Exceeds x n keyword := by
  unfold readKeyword
  split
  · exact (withTwo_ends _ _ readPush_ends).operand
  · exact (withTwo_ends _ _ readPop_ends).operand
  · exact (withOne_ends _ _ (readLabelled_ends scope _)).operand.trans (by simp [Exceeds])
  · exact (withOne_ends _ _ (readLabelled_ends scope _)).operand.trans (by simp [Exceeds])
  · exact (withOne_ends _ _ (readLabelled_ends scope _)).operand.trans (by simp [Exceeds])
  · exact (withTwo_ends _ _ (readCounted_ends _)).operand
  · exact (withTwo_ends _ _ (readCounted_ends _)).operand
  · exact (withNone_ends _ _ _).operand.trans (by simp [Exceeds])
  · simp_all [Exceeds, Malformed.isOperand]

theorem denotes_cons {scope : Option String} {word : List Char} {operands : List (List Char)}
    {c : Command} : Denotes scope (word :: operands) c ↔
      c.keyword = String.ofList word ∧ Operands scope operands c := by
  constructor
  · rintro ⟨_, ⟨⟩, h⟩
    exact ⟨String.ofList_toList.symm, h⟩
  · rintro ⟨hword, h⟩
    exact ⟨operands, by rw [hword, String.toList_ofList], h⟩

theorem oversteps_cons {word : List Char} {operands : List (List Char)} :
    Oversteps (word :: operands) ↔ ∃ x y, operands = [x, y] ∧
      ∃ n, IsNumber y n ∧ n ≤ 65535 ∧ Exceeds x n (String.ofList word) := by
  constructor
  · rintro ⟨keyword, x, y, n, ⟨⟩, hn, hword, hexceeds⟩
    exact ⟨x, y, rfl, n, hn, hword, String.ofList_toList.symm ▸ hexceeds⟩
  · rintro ⟨x, y, rfl, n, hn, hword, hexceeds⟩
    exact ⟨String.ofList word, x, y, n, by rw [String.toList_ofList], hn, hword, hexceeds⟩

theorem keyword_eq_text {c : Command} {op : Operation} : c.keyword = op.text ↔ c = .operate op := by
  constructor
  · intro h
    have hread : Operation.ofText? c.keyword = some op := Operation.ofText?_eq_some_iff.2 h.symm
    cases c with
    | operate other =>
      have hother : Operation.ofText? other.text = some other := Operation.ofText?_eq_some_iff.2 rfl
      exact congrArg operate (Option.some.inj (hother.symm.trans hread))
    | _ => cases (hread : none = some op)
  · rintro rfl
    rfl

theorem readWords_ends (scope : Option String) (ws : List (List Char)) :
    Ends (readWords scope ws)
      (fun r => (r = none ∧ ws = []) ∨ ∃ c, Denotes scope ws c ∧ r = some c) (Oversteps ws) := by
  cases ws with
  | nil =>
    refine .found (fun r => ?_) ?_
    · constructor
      · rintro (⟨hr, -⟩ | ⟨c, ⟨_, ⟨⟩, _⟩, _⟩)
        exact hr
      · exact fun hr => .inl ⟨hr, rfl⟩
    · rintro ⟨_, _, _, _, ⟨⟩, _⟩
  | cons word operands =>
    simp only [readWords, denotes_cons, oversteps_cons, reduceCtorEq, and_false, false_or]
    cases hop : Operation.ofText? (String.ofList word) with
    | some op =>
      rw [← Operation.ofText?_eq_some_iff.1 hop]
      refine ((withNone_ends op.text operands (.operate op)).congr (fun c => ?_) ?_).map some
      · rw [keyword_eq_text, and_comm]
        refine and_congr_right fun hc => ?_
        subst hc
        rfl
      · have hlimit : ∀ x n, ¬ Exceeds x n op.text := by
          intro x n
          cases op <;> exact id
        simp [hlimit]
    | none =>
      have hnone (op : Operation) : op.text ≠ String.ofList word := fun h => by
        simp [Operation.ofText?_eq_some_iff.2 h] at hop
      exact Ends.map ⟨readKeyword_ok_iff scope operands hnone,
        readKeyword_operand_iff scope _ operands⟩ some

theorem readLine_none_iff {scope : Option String} {line : List Char} :
    readLine scope line = .ok none ↔ words (beforeComment line) = [] :=
  ((readWords_ends scope _).ok none).trans (by simp)

theorem readLine_some_iff {scope : Option String} {line : List Char} {c : Command} :
    readLine scope line = .ok (some c) ↔ Denotes scope (words (beforeComment line)) c :=
  ((readWords_ends scope _).ok (some c)).trans (by simp)

/-- Reading a line by the grammar, and the error of a line that it refuses. The words are the pieces
between white space of what stands before the first two slashes. -/
theorem readLine_follows_grammar (scope : Option String) (line : List Char) (location : Location) :
    ∃ part ws, (∀ p, UpToComment line p ↔ p = part) ∧
      ws = (part.splitOnP isBlank).filter (!·.isEmpty) ∧
      let result := (readLine scope line).mapError (·.toError location)
      (result = .ok none ↔ ws = []) ∧
      (∀ c, result = .ok (some c) ↔ Denotes scope ws c) ∧
      ((∃ message, result = .error (.operand message location)) ↔ Oversteps ws) ∧
      ((∃ message, result = .error (.parse message location)) ↔
        ws ≠ [] ∧ (∀ c, ¬ Denotes scope ws c) ∧ ¬ Oversteps ws) ∧
      ((∀ f ∈ scope, isSymbol f.toList) → ∀ c, Denotes scope ws c → c.WellFormed) := by
  refine ⟨beforeComment line, words (beforeComment line), fun p => upToComment_iff, words_eq _, ?_⟩
  have hends : Ends (readLine scope line) _ _ := readWords_ends scope (words (beforeComment line))
  refine ⟨mapError_eq_ok_iff.trans readLine_none_iff,
    fun c => mapError_eq_ok_iff.trans readLine_some_iff, mapError_operand_iff.trans hends.operand,
    mapError_parse_iff.trans (hends.form.trans ?_), ?_⟩
  · rw [← and_assoc]
    refine and_congr_left fun _ => ?_
    constructor
    · intro h
      exact ⟨fun hws => h none (.inl ⟨rfl, hws⟩), fun c hc => h (some c) (.inr ⟨c, hc, rfl⟩)⟩
    · rintro ⟨hws, hc⟩ r (⟨-, h⟩ | ⟨c, h, -⟩)
      · exact hws h
      · exact hc c h
  · exact fun hscope c hc => hc.wellFormed hscope

end Command

end HackStack
