import HackStack.Files.Pattern
import Mathlib.Data.List.Basic

set_option autoImplicit false

namespace HackStack.Files

def IsWildcard (c : Char) : Prop := c = '*' ∨ c = '?' ∨ c = '['

def Plain (text : List Char) : Prop := ∀ c ∈ text, ¬ IsWildcard c

def sourceTokens : List Token := [.anyText, .char '.', .char 'v', .char 'm']

section Forms

variable {token : Token} {tokens : List Token} {p : List Char → Bool} {name text : List Char}

theorem anyEnd_iff : anyEnd p text ↔ ∃ before rest, text = before ++ rest ∧ p rest := by
  induction text with
  | nil =>
    constructor
    · exact fun h => ⟨[], [], rfl, h⟩
    · rintro ⟨before, rest, htext, hrest⟩
      obtain ⟨-, rfl⟩ := List.append_eq_nil_iff.1 htext.symm
      exact hrest
  | cons c text ih =>
    rw [anyEnd, Bool.or_eq_true, ih]
    constructor
    · rintro (h | ⟨before, rest, rfl, h⟩)
      · exact ⟨[], c :: text, rfl, h⟩
      · exact ⟨c :: before, rest, rfl, h⟩
    · rintro ⟨before, rest, htext, h⟩
      cases before with
      | nil =>
        cases htext
        exact .inl h
      | cons d before =>
        cases htext
        exact .inr ⟨before, rest, rfl, h⟩

theorem startsWith_iff :
    startsWith token p text ↔ ∃ c rest, text = c :: rest ∧ token.accepts c ∧ p rest := by
  cases text with
  | nil => simp [startsWith]
  | cons c text => simp [startsWith]

theorem hasForm_text (h : token.isText) :
    hasForm (token :: tokens) name ↔ ∃ before rest, name = before ++ rest ∧ hasForm tokens rest := by
  rw [hasForm, if_pos h, anyEnd_iff]

theorem hasForm_single (h : token.isText = false) : hasForm (token :: tokens) name ↔
    ∃ c rest, name = c :: rest ∧ token.accepts c ∧ hasForm tokens rest := by
  rw [hasForm, if_neg (by simp [h]), startsWith_iff]

theorem hasForm_chars : hasForm (text.map .char) name ↔ name = text := by
  induction text generalizing name with
  | nil => simp [hasForm]
  | cons c text ih =>
    rw [List.map_cons, hasForm_single rfl]
    simp only [ih, Token.accepts, decide_eq_true_eq]
    constructor
    · rintro ⟨_, _, rfl, rfl, rfl⟩
      rfl
    · rintro rfl
      exact ⟨c, text, rfl, rfl, rfl⟩

theorem matchesName_sourceTokens :
    matchesName sourceTokens name ↔ ∃ stem, name = stem ++ ['.', 'v', 'm'] := by
  have hchars : [Token.char '.', .char 'v', .char 'm'] = ['.', 'v', 'm'].map .char := rfl
  rw [matchesName_eq, sourceTokens, hasForm_text rfl, hchars]
  simp only [hasForm_chars]
  constructor
  · rintro ⟨stem, _, rfl, rfl⟩
    exact ⟨stem, rfl⟩
  · rintro ⟨stem, rfl⟩
    exact ⟨stem, _, rfl, rfl⟩

end Forms

section Plain

theorem readTokens_nil (fuel position : Nat) (boundary : Bool) (tokens : List Token) :
    readTokens fuel position boundary tokens [] = .ok tokens.reverse := by
  cases fuel <;> rfl

theorem readTokens_plain {c : Char} (h : ¬ IsWildcard c) (fuel position : Nat) (boundary : Bool)
    (tokens : List Token) (text : List Char) :
    readTokens (fuel + 1) position boundary tokens (c :: text) =
      readTokens fuel (position + 1) (c = '/') (.char c :: tokens) text := by
  rw [IsWildcard, not_or, not_or] at h
  rw [readTokens]
  all_goals simp_all

/-- A plain text is read as its characters, and then what follows it is read. -/
theorem readTokens_append {text : List Char} (h : Plain text) (fuel position : Nat) (boundary : Bool)
    (tokens : List Token) (rest : List Char) : ∃ position' boundary',
    readTokens (fuel + text.length) position boundary tokens (text ++ rest) =
      readTokens fuel position' boundary' ((text.map .char).reverse ++ tokens) rest := by
  induction text generalizing position boundary tokens with
  | nil => exact ⟨position, boundary, rfl⟩
  | cons c text ih =>
    obtain ⟨hc, htext⟩ := List.forall_mem_cons.1 h
    obtain ⟨position', boundary', hread⟩ := ih htext (position + 1) (c = '/') (.char c :: tokens)
    refine ⟨position', boundary', ?_⟩
    rw [List.length_cons, ← Nat.add_assoc, List.cons_append, readTokens_plain hc, hread]
    simp

theorem parsePattern_plain {text : List Char} (h : Plain text) :
    parsePattern text = .ok (text.map .char) := by
  obtain ⟨position, boundary, hread⟩ := readTokens_append h 0 0 true [] []
  rw [Nat.zero_add, List.append_nil, readTokens_nil] at hread
  rw [parsePattern, hread]
  simp

theorem parsePattern_sources {text : List Char} (h : Plain text) :
    parsePattern (text ++ ['*', '.', 'v', 'm']) = .ok (text.map .char ++ sourceTokens) := by
  obtain ⟨position, boundary, hread⟩ := readTokens_append h 4 0 true [] ['*', '.', 'v', 'm']
  rw [parsePattern, List.length_append, List.length_cons, Nat.add_comm]
  refine hread.trans ?_
  simp [readTokens, sourceTokens]

end Plain

section Wildcards

def singles (tokens : List Token) : Nat := tokens.countP fun token => !token.isText

theorem singles_cons (token : Token) (tokens : List Token) :
    singles (token :: tokens) = singles tokens + if token.isText then 0 else 1 := by
  rw [singles, List.countP_cons]
  cases token.isText <;> rfl

/-- A name that has a form and is not needed for single characters alone, or meets one that may be any,
has a part that can be exchanged for any character. -/
theorem hasForm_exchange {tokens : List Token} {name : List Char} (h : hasForm tokens name)
    (hmore : .anyChar ∈ tokens ∨ singles tokens < name.length) :
    ∃ before part after, name = before ++ (part ++ after) ∧ part ≠ [] ∧
      ∀ c, hasForm tokens (before ++ c :: after) := by
  induction tokens generalizing name with
  | nil =>
    have hname : name = [] := by simpa [hasForm] using h
    simp [hname] at hmore
  | cons token tokens ih =>
    rw [List.mem_cons, singles_cons] at hmore
    cases htoken : token.isText with
    | true =>
      obtain ⟨part, rest, rfl, hrest⟩ := (hasForm_text htoken).1 h
      cases part with
      | cons x part =>
        exact ⟨[], x :: part, rest, rfl, List.cons_ne_nil _ _,
          fun c => (hasForm_text htoken).2 ⟨[c], rest, rfl, hrest⟩⟩
      | nil =>
        have hany : Token.anyChar ≠ token := by
          rintro rfl
          cases htoken
        rw [htoken, List.nil_append] at hmore
        obtain ⟨before, part, after, hname, hpart, hform⟩ := ih hrest (hmore.imp_left (·.resolve_left hany))
        exact ⟨before, part, after, hname, hpart, fun c => (hasForm_text htoken).2 ⟨[], _, rfl, hform c⟩⟩
    | false =>
      obtain ⟨x, rest, rfl, hx, hrest⟩ := (hasForm_single htoken).1 h
      by_cases hany : token = .anyChar
      · subst hany
        exact ⟨[], [x], rest, rfl, List.cons_ne_nil _ _,
          fun c => (hasForm_single rfl).2 ⟨c, rest, rfl, rfl, hrest⟩⟩
      · rw [htoken, List.length_cons] at hmore
        obtain ⟨before, part, after, hname, hpart, hform⟩ :=
          ih hrest (hmore.imp (·.resolve_left (Ne.symm hany)) (by simp))
        refine ⟨x :: before, part, after, by rw [hname, List.cons_append], hpart, fun c => ?_⟩
        exact (hasForm_single htoken).2 ⟨x, _, rfl, hx, hform c⟩

theorem cutRange?_rest {text : List Char} {cut : List Char × List Char}
    (h : cutRange? text = some cut) : cut.2 <:+ text ∧ cut.2.length + 2 ≤ text.length := by
  cases text with
  | nil => cases h
  | cons first rest =>
    rw [cutRange?] at h
    have hsuffix := List.dropWhile_suffix (· != ']') (l := rest)
    cases hdrop : rest.dropWhile (· != ']') with
    | nil =>
      rw [hdrop] at h
      cases h
    | cons bracket after =>
      rw [hdrop] at h hsuffix
      cases h
      have hlength := hsuffix.length_le
      refine ⟨((List.suffix_cons _ _).trans hsuffix).trans (List.suffix_cons _ _), ?_⟩
      simpa using hlength

theorem readRange?_rest {text after : List Char} {token : Token}
    (h : readRange? text = some (token, after)) :
    after <:+ text ∧ after.length + 2 ≤ text.length ∧ token ≠ .anyDirectories ∧ ∀ c, token ≠ .char c := by
  unfold readRange? at h
  split at h
  next rest =>
    obtain ⟨cut, hcut, hread⟩ := Option.map_eq_some_iff.1 h
    cases hread
    obtain ⟨hsuffix, hlength⟩ := cutRange?_rest hcut
    refine ⟨hsuffix.trans (List.suffix_cons _ _), ?_, by simp, by simp⟩
    rw [List.length_cons]
    omega
  next =>
    obtain ⟨cut, hcut, hread⟩ := Option.map_eq_some_iff.1 h
    cases hread
    obtain ⟨hsuffix, hlength⟩ := cutRange?_rest hcut
    exact ⟨hsuffix, hlength, by simp, by simp⟩

theorem literal?_cons_of_none {token : Token} {tokens : List Token} (h : literal? tokens = none) :
    literal? (token :: tokens) = none := by
  cases token with
  | char c => rw [literal?, h, Option.map_none]
  | _ => rfl

/-- The tokens of a part of a name stand for at most as many single characters as the part has. If it has
wildcards they are no text, and stand for fewer unless one is a `?`. -/
structure Takes (text : List Char) (tokens : List Token) : Prop where
  flat : .anyDirectories ∉ tokens
  atMost : singles tokens ≤ text.length
  wild : ¬ Plain text → literal? tokens = none
  fewer : ¬ Plain text → .anyChar ∈ tokens ∨ singles tokens < text.length

theorem Takes.cons {text after : List Char} {token : Token} {tokens : List Token}
    (h : Takes after tokens) (hflat : token ≠ .anyDirectories) (hlength : after.length + 1 ≤ text.length)
    (hmore : (Plain after → Plain text) ∨ (∀ c, token ≠ .char c) ∧
      (token = .anyChar ∨ token.isText ∨ after.length + 1 < text.length)) : Takes text (token :: tokens) := by
  have hatMost := h.atMost
  have hsingles := singles_cons token tokens
  constructor
  · exact List.not_mem_cons_of_ne_of_not_mem (Ne.symm hflat) h.flat
  · rw [hsingles]
    split <;> omega
  · intro htext
    obtain hplain | ⟨hchar, -⟩ := hmore
    · exact literal?_cons_of_none (h.wild (mt hplain htext))
    · cases token with
      | char c => exact absurd rfl (hchar c)
      | _ => rfl
  · intro htext
    rw [hsingles]
    rcases hmore with hplain | ⟨-, rfl | hisText | hlong⟩
    · rcases h.fewer (mt hplain htext) with hany | hfewer
      · exact .inl (List.mem_cons_of_mem _ hany)
      · right
        split <;> omega
    · exact .inl List.mem_cons_self
    · right
      rw [if_pos hisText]
      omega
    · right
      split <;> omega

/-- What a part of a name is read as, behind some tokens in reverse. Only `**` as a whole stands for
directories. -/
def ReadAs (boundary : Bool) (text : List Char) (tokens read : List Token) : Prop :=
  boundary ∧ text = ['*', '*'] ∨ ∃ new, read = tokens.reverse ++ new ∧ Takes text new

theorem ReadAs.nil (boundary : Bool) (tokens : List Token) : ReadAs boundary [] tokens tokens.reverse :=
  .inr ⟨[], (List.append_nil _).symm, List.not_mem_nil, Nat.le_refl 0,
    fun h => absurd (List.forall_mem_nil _) h, fun h => absurd (List.forall_mem_nil _) h⟩

theorem ReadAs.cons {boundary : Bool} {text after : List Char} {token : Token} {tokens read : List Token}
    (h : ReadAs false after (token :: tokens) read) (hflat : token ≠ .anyDirectories)
    (hlength : after.length + 1 ≤ text.length)
    (hmore : (Plain after → Plain text) ∨ (∀ c, token ≠ .char c) ∧
      (token = .anyChar ∨ token.isText ∨ after.length + 1 < text.length)) :
    ReadAs boundary text tokens read := by
  obtain ⟨hfalse, -⟩ | ⟨new, hread, htakes⟩ := h
  · cases hfalse
  · refine .inr ⟨token :: new, ?_, htakes.cons hflat hlength hmore⟩
    rw [hread, List.reverse_cons, List.append_assoc, List.singleton_append]

theorem readTokens_name {fuel position : Nat} {boundary : Bool} {tokens read : List Token}
    {text : List Char} (h : readTokens fuel position boundary tokens text = .ok read)
    (hslash : '/' ∉ text) (hfuel : text.length ≤ fuel) : ReadAs boundary text tokens read := by
  fun_induction readTokens fuel position boundary tokens text with
  | case1 position boundary tokens text =>
    cases h
    obtain rfl := List.eq_nil_of_length_eq_zero (Nat.le_zero.1 hfuel)
    exact .nil boundary tokens
  | case2 =>
    cases h
    exact .nil _ _
  | case3 position boundary tokens fuel rest ih =>
    have hrest := ih h (List.not_mem_of_not_mem_cons hslash) (Nat.le_of_succ_le_succ hfuel)
    exact hrest.cons (by simp) (Nat.le_refl _) (.inr ⟨by simp, .inl rfl⟩)
  | case5 position tokens fuel new rest _ ih => simp at hslash
  | case6 => exact .inl ⟨rfl, rfl⟩
  | case9 position boundary tokens fuel rest _ _ ih =>
    have hrest := ih h (List.not_mem_of_not_mem_cons hslash) (Nat.le_of_succ_le_succ hfuel)
    exact hrest.cons (by simp) (Nat.le_refl _) (.inr ⟨by simp, .inr (.inl rfl)⟩)
  | case10 position boundary tokens fuel rest token after hrange ih =>
    obtain ⟨hsuffix, hlength, hflat, hchar⟩ := readRange?_rest hrange
    rw [List.length_cons] at hfuel
    have hafter := ih h (fun hmem => hslash (List.mem_cons_of_mem _ (hsuffix.subset hmem))) (by omega)
    refine hafter.cons hflat ?_ (.inr ⟨hchar, .inr (.inr ?_)⟩) <;>
    · rw [List.length_cons]
      omega
  | case12 position boundary tokens fuel c rest hone _ _ hmany hset ih =>
    have hc : c ≠ '/' := fun heq => hslash (heq ▸ List.mem_cons_self)
    have hrest := ih h (List.not_mem_of_not_mem_cons hslash) (Nat.le_of_succ_le_succ hfuel)
    rw [decide_eq_false hc] at hrest
    refine hrest.cons (by simp) (Nat.le_refl _) (.inl fun hplain => List.forall_mem_cons.2 ⟨?_, hplain⟩)
    rintro (rfl | rfl | rfl)
    · exact hmany rfl
    · exact hone rfl
    · exact hset rfl
  | case4 | case7 | case8 | case11 => cases h

/-- A name that has wildcards, is a pattern other than `**` and has its own form shares that form with
names that have any character in the place of some part of it. -/
theorem exchange_of_parsePattern {name : List Char} {tokens : List Token}
    (h : parsePattern name = .ok tokens) (hslash : '/' ∉ name) (hplain : ¬ Plain name)
    (hstars : name ≠ ['*', '*']) : .anyDirectories ∉ tokens ∧ literal? tokens = none ∧
      (matchesName tokens name → ∃ before part after, name = before ++ (part ++ after) ∧ part ≠ [] ∧
        ∀ c, matchesName tokens (before ++ c :: after)) := by
  obtain ⟨-, heq⟩ | ⟨new, hread, htakes⟩ := readTokens_name h hslash (Nat.le_refl _)
  · exact absurd heq hstars
  · obtain rfl : tokens = new := hread
    simp only [matchesName_eq]
    exact ⟨htakes.flat, htakes.wild hplain, fun hform => hasForm_exchange hform (htakes.fewer hplain)⟩

end Wildcards

end HackStack.Files
