import HackStack.Proofs.Sites

set_option autoImplicit false

/-! # Generated labels

Every label made for a site ends in a dot and the position of the site. A numeral holds no dot, so the
last dot of a label tells the position whatever dots and digits stand before it, and labels made for
different sites differ. -/

namespace HackStack

open Assembly

def labelNames (code : List Statement) : List String :=
  code.filterMap fun
    | .label name => some name
    | _ => none

@[simp]
theorem labelNames_append (xs ys : List Statement) :
    labelNames (xs ++ ys) = labelNames xs ++ labelNames ys := List.filterMap_append

theorem labelNames_cons (i : Statement) (code : List Statement) :
    labelNames (i :: code) = labelNames [i] ++ labelNames code := labelNames_append [i] code

theorem mem_labelNames {code : List Statement} {name : String} :
    name ∈ labelNames code ↔ .label name ∈ code := by
  rw [labelNames, List.mem_filterMap]
  constructor
  · rintro ⟨i, hi, hname⟩
    cases i with
    | label other =>
      cases hname
      exact hi
    | _ => cases hname
  · exact fun h => ⟨_, h, rfl⟩

theorem labelNames_label (name : String) : labelNames [.label name] = [name] := rfl

theorem labelNames_instruction {i : Statement} (h : i.isInstruction) : labelNames [i] = [] := by
  cases i with
  | label name => cases h
  | _ => rfl

namespace Decimal

theorem isDigit_digit {n : Nat} (h : n < 10) : (digit n).isDigit := by
  match n, h with
  | 0, _ | 1, _ | 2, _ | 3, _ | 4, _ | 5, _ | 6, _ | 7, _ | 8, _ | 9, _ => rfl

theorem isDigit_digitsBefore {tail : List Char} (htail : ∀ c ∈ tail, c.isDigit) (fuel n : Nat) :
    ∀ c ∈ digitsBefore tail fuel n, c.isDigit := by
  induction fuel generalizing tail n with
  | zero => exact htail
  | succ fuel ih =>
    simp only [digitsBefore]
    split
    next hn => exact List.forall_mem_cons.2 ⟨isDigit_digit hn, htail⟩
    next =>
      exact ih (List.forall_mem_cons.2 ⟨isDigit_digit (Nat.mod_lt _ (by omega)), htail⟩) (n / 10)

theorem isDigit_of_mem_digits {n : Nat} {c : Char} (h : c ∈ digits n) : c.isDigit :=
  isDigit_digitsBefore (by simp) (n + 1) n c h

theorem digits_injective {m n : Nat} (h : digits m = digits n) : m = n := by
  rw [← value_digits m, h, value_digits]

end Decimal

/-- The last separator of a text that has none after it is found from the right. -/
theorem append_sep_inj {sep : Char} {xs ys us vs : List Char} (hu : sep ∉ us) (hv : sep ∉ vs)
    (h : xs ++ sep :: us = ys ++ sep :: vs) : xs = ys ∧ us = vs := by
  obtain ⟨zs, h⟩ | ⟨zs, h⟩ := List.append_eq_append_iff.1 h
  · obtain ⟨rfl, hcons⟩ := h
    cases zs with
    | nil => exact ⟨by simp, by simpa using hcons⟩
    | cons z zs =>
      obtain ⟨-, rfl⟩ := List.cons.inj hcons
      exact absurd (by simp) hu
  · obtain ⟨rfl, hcons⟩ := h
    cases zs with
    | nil => exact ⟨by simp, by simpa using hcons.symm⟩
    | cons z zs =>
      obtain ⟨-, rfl⟩ := List.cons.inj hcons
      exact absurd (by simp) hv

namespace Lowering

def suffixed (stem : String) (n : Nat) : String := stem ++ "." ++ Decimal.text n

theorem suffixed_toList (stem : String) (n : Nat) :
    (suffixed stem n).toList = stem.toList ++ '.' :: Decimal.digits n := by
  simp [suffixed, Decimal.text]

/-- A suffixed name tells its stem and its number. -/
theorem suffixed_inj {s t : String} {m n : Nat} (h : suffixed s m = suffixed t n) :
    s = t ∧ m = n := by
  have hdot : ∀ k, '.' ∉ Decimal.digits k := by
    intro k hk
    exact absurd (Decimal.isDigit_of_mem_digits hk) (by decide)
  have hlist := congrArg String.toList h
  rw [suffixed_toList, suffixed_toList] at hlist
  obtain ⟨hs, hn⟩ := append_sep_inj (hdot m) (hdot n) hlist
  exact ⟨String.toList_inj.1 hs, Decimal.digits_injective hn⟩

theorem trueLabel_eq (unit : String) (op : Operation) (n : Nat) :
    trueLabel unit op n = suffixed (unit ++ "." ++ capitals op ++ "_TRUE") n := by
  simp only [trueLabel, suffixed, String.append_assoc, show "_TRUE." = "_TRUE" ++ "." from rfl]

theorem endLabel_eq (unit : String) (op : Operation) (n : Nat) :
    endLabel unit op n = suffixed (unit ++ "." ++ capitals op ++ "_END") n := by
  simp only [endLabel, suffixed, String.append_assoc, show "_END." = "_END" ++ "." from rfl]

theorem returnLabel_eq (callee : String) (n : Nat) :
    returnLabel callee n = suffixed (callee ++ "$ret") n := by
  simp only [returnLabel, suffixed, String.append_assoc, show "$ret." = "$ret" ++ "." from rfl]

theorem trueLabel_ne_endLabel (unit : String) (op : Operation) (n : Nat) :
    trueLabel unit op n ≠ endLabel unit op n := by
  intro h
  rw [trueLabel_eq, endLabel_eq] at h
  have hstem := congrArg String.toList (suffixed_inj h).1
  simp at hstem

def madeLabels (unit : String) (position : Nat) : Command → List String
  | .operate op =>
    match op with
    | .eq | .gt | .lt => [trueLabel unit op position, endLabel unit op position]
    | _ => []
  | .call name _ => [returnLabel name position]
  | _ => []

def Site.madeLabels (s : Site) : List String := Lowering.madeLabels s.unit s.position s.command

def inventedLabels (options : Options) (withBootstrap : Bool) (units : List SourceUnit) :
    List String :=
  (if withBootstrap then [returnLabel options.entryPoint 0] else []) ++
    (sites withBootstrap units).flatMap Site.madeLabels

theorem labelNames_push (unit : String) (segment : Segment) (index : Word) :
    labelNames (push unit segment index) = [] := by
  cases segment <;> rfl

theorem labelNames_pop (unit : String) (segment : Segment) (index : Word) :
    labelNames (pop unit segment index) = [] := by
  cases segment <;> rfl

theorem labelNames_zeros (unit : String) (n : Nat) :
    labelNames (List.replicate n (push unit .constant 0)).flatten = [] := by
  induction n with
  | zero => rfl
  | succ n ih =>
    rw [List.replicate_succ, List.flatten_cons, labelNames_append, labelNames_push, ih]
    rfl

/-- The labels in the code of a command are those that it declares and those made for it. -/
theorem labelNames_fragment (unit : String) (position : Nat) (c : Command) :
    labelNames (fragment unit position c) = c.declaredNames ++ madeLabels unit position c := by
  cases c with
  | push segment index => exact labelNames_push unit segment index
  | pop segment index => exact labelNames_pop unit segment index
  | operate op => cases op <;> rfl
  | function name locals => exact congrArg (name :: ·) (labelNames_zeros unit locals.toNat)
  | label | goto | ifGoto | call | ret => rfl

theorem labelNames_sites (ss : List Site) :
    (labelNames (ss.flatMap Site.code)).Perm
      (ss.flatMap Site.madeLabels ++ ss.flatMap fun s => s.command.declaredNames) := by
  induction ss with
  | nil => exact .nil
  | cons s ss ih =>
    have hs : labelNames s.code = s.command.declaredNames ++ s.madeLabels :=
      labelNames_fragment s.unit s.position s.command
    simp only [List.flatMap_cons, labelNames_append, hs]
    refine (List.perm_append_comm.append ih).trans ?_
    simp only [List.append_assoc]
    refine .append_left _ ?_
    simp only [← List.append_assoc]
    exact .append_right _ List.perm_append_comm

theorem unitSites_declared (unit : String) (n : Nat) (commands : List Located) :
    (unitSites unit n commands).flatMap (fun s => s.command.declaredNames) =
      commands.flatMap fun c => c.command.declaredNames := by
  induction commands generalizing n with
  | nil => rfl
  | cons c cs ih =>
    simp only [unitSites, List.flatMap_cons, ih]
    rfl

theorem sitesFrom_declared (n : Nat) (units : List SourceUnit) :
    (sitesFrom n units).flatMap (fun s => s.command.declaredNames) = declaredNames units := by
  induction units generalizing n with
  | nil => rfl
  | cons u us ih =>
    simp only [sitesFrom, List.flatMap_append, unitSites_declared, ih]
    rfl

/-- The labels of a program are those made for it and those that it declares. -/
theorem labelNames_programCode (options : Options) (withBootstrap : Bool)
    (units : List SourceUnit) :
    (labelNames (programCode options withBootstrap units)).Perm
      (inventedLabels options withBootstrap units ++ declaredNames units) := by
  have hboot : labelNames (bootCode options withBootstrap) =
      if withBootstrap then [returnLabel options.entryPoint 0] else [] := by
    cases withBootstrap <;> rfl
  rw [programCode, labelNames_append, hboot, inventedLabels, List.append_assoc,
    ← sitesFrom_declared]
  exact .append_left _ (labelNames_sites _)

theorem unitSites_position (unit : String) (n : Nat) (commands : List Located) :
    (∀ s ∈ unitSites unit n commands, n ≤ s.position ∧ s.position < n + positionsUsed commands) ∧
      (unitSites unit n commands).Pairwise fun s t => s.position < t.position := by
  induction commands generalizing n with
  | nil => simp [unitSites]
  | cons c cs ih =>
    obtain ⟨hmem, hpair⟩ := ih (n + positions c.command)
    have hpos : 0 < positions c.command := by
      cases c.command <;> simp [positions]
    have hused : positionsUsed (c :: cs) = positions c.command + positionsUsed cs := rfl
    refine ⟨?_, ?_⟩
    · intro s hs
      rcases List.mem_cons.1 hs with rfl | hs
      · exact ⟨Nat.le_refl n, show n < n + positionsUsed (c :: cs) by omega⟩
      · have h := hmem s hs
        omega
    · refine List.pairwise_cons.2 ⟨?_, hpair⟩
      intro s hs
      have h := (hmem s hs).1
      exact Nat.lt_of_lt_of_le (Nat.lt_add_of_pos_right hpos) h

theorem sitesFrom_position (n : Nat) (units : List SourceUnit) :
    (∀ s ∈ sitesFrom n units, n ≤ s.position) ∧
      (sitesFrom n units).Pairwise fun s t => s.position < t.position := by
  induction units generalizing n with
  | nil => simp [sitesFrom]
  | cons u us ih =>
    obtain ⟨hmem, hpair⟩ := ih (n + positionsUsed u.commands)
    obtain ⟨hunit, hupair⟩ := unitSites_position u.name n u.commands
    refine ⟨?_, List.pairwise_append.2 ⟨hupair, hpair, ?_⟩⟩
    · intro s hs
      rcases List.mem_append.1 hs with hs | hs
      · exact (hunit s hs).1
      · exact Nat.le_trans (Nat.le_add_right _ _) (hmem s hs)
    · intro s hs t ht
      exact Nat.lt_of_lt_of_le (hunit s hs).2 (hmem t ht)

theorem exists_of_mem_madeLabels {s : Site} {name : String} (h : name ∈ s.madeLabels) :
    ∃ stem, name = suffixed stem s.position := by
  obtain ⟨unit, position, ⟨c, location⟩⟩ := s
  cases c with
  | operate op =>
    cases op with
    | eq | gt | lt =>
      rcases List.mem_cons.1 h with rfl | h
      · exact ⟨_, trueLabel_eq _ _ _⟩
      · obtain rfl := List.mem_singleton.1 h
        exact ⟨_, endLabel_eq _ _ _⟩
    | _ => cases h
  | call callee args =>
    obtain rfl := List.mem_singleton.1 h
    exact ⟨_, returnLabel_eq _ _⟩
  | _ => cases h

theorem nodup_madeLabels (s : Site) : s.madeLabels.Nodup := by
  obtain ⟨unit, position, ⟨c, location⟩⟩ := s
  cases c with
  | operate op =>
    cases op with
    | eq | gt | lt => exact List.nodup_cons.2 ⟨by simpa using trueLabel_ne_endLabel _ _ _, by simp⟩
    | _ => exact List.nodup_nil
  | call callee args => exact List.nodup_cons.2 ⟨by simp, List.nodup_nil⟩
  | _ => exact List.nodup_nil

theorem nodup_inventedLabels (options : Options) (withBootstrap : Bool) (units : List SourceUnit) :
    (inventedLabels options withBootstrap units).Nodup := by
  have hsites (n : Nat) : ((sitesFrom n units).flatMap Site.madeLabels).Nodup := by
    refine List.pairwise_flatMap.2 ⟨fun s _ => nodup_madeLabels s, ?_⟩
    refine (sitesFrom_position n units).2.imp ?_
    intro s t hlt x hx y hy hxy
    obtain ⟨_, rfl⟩ := exists_of_mem_madeLabels hx
    obtain ⟨_, rfl⟩ := exists_of_mem_madeLabels hy
    have := (suffixed_inj hxy).2
    omega
  cases withBootstrap with
  | false => exact hsites 0
  | true =>
    refine List.nodup_cons.2 ⟨?_, hsites 1⟩
    intro h
    obtain ⟨s, hs, hname⟩ := List.mem_flatMap.1 h
    obtain ⟨_, heq⟩ := exists_of_mem_madeLabels hname
    rw [returnLabel_eq] at heq
    have hpos := (sitesFrom_position 1 units).1 s hs
    have := (suffixed_inj heq).2
    omega

/-- The labels made for a program are pairwise different, whatever its units, commands and options,
and together with the names that it declares itself they are all labels of its code. -/
theorem invented_labels_distinct (options : Options) (withBootstrap : Bool)
    (units : List SourceUnit) :
    (inventedLabels options withBootstrap units).Nodup ∧
      (labelNames (statements (program options withBootstrap units))).Perm
        (inventedLabels options withBootstrap units ++ declaredNames units) := by
  refine ⟨nodup_inventedLabels options withBootstrap units, ?_⟩
  rw [statements_program]
  exact labelNames_programCode options withBootstrap units

end Lowering

end HackStack
