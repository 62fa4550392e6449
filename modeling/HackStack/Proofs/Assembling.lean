import Mathlib.Data.List.Perm.Subperm
import HackStack.Proofs.Execution
import HackStack.Proofs.Labels

set_option autoImplicit false

namespace HackStack.Assembly

theorem nodup_eraseDups {α : Type} [BEq α] [LawfulBEq α] (xs : List α) : xs.eraseDups.Nodup := by
  -- The tail of the result comes from a filtered list, which is shorter but no tail of the list.
  induction hn : xs.length using Nat.strongRecOn generalizing xs with
  | ind n ih =>
    cases xs with
    | nil => exact List.nodup_nil
    | cons x rest =>
      have hshort : (rest.filter fun y => !y == x).length < n :=
        hn ▸ Nat.lt_succ_of_le (List.length_filter_le _ rest)
      rw [List.eraseDups_cons, List.nodup_cons, List.mem_eraseDups]
      exact ⟨by simp, ih _ hshort _ rfl⟩

namespace SymbolTable

theorem address?_eq_none {table : SymbolTable} {name : String} :
    table.address? name = none ↔ predefined.lookup name = none ∧ table[name]? = none := by
  cases h : predefined.lookup name with
  | none => simp only [address?, h, true_and]
  | some a => simp [address?, h]

theorem address?_insert_self {table : SymbolTable} {name : String} (a : Word)
    (h : table.address? name = none) : address? (table.insert name a) name = some a := by
  simp only [address?, (address?_eq_none.1 h).1, Std.HashMap.getElem?_insert_self]

theorem address?_insert_ne {table : SymbolTable} {name other : String} (a : Word)
    (h : name ≠ other) : address? (table.insert name a) other = table.address? other := by
  simp only [address?, Std.HashMap.getElem?_insert, beq_eq_false_iff_ne.2 h, Bool.false_eq_true,
    if_false]

theorem address?_insert_eq_none {table : SymbolTable} {name other : String} (a : Word)
    (h : table.address? name = none) :
    address? (table.insert name a) other = none ↔ name ≠ other ∧ table.address? other = none := by
  by_cases heq : name = other
  · subst heq
    simp [address?_insert_self a h]
  · simp [address?_insert_ne a heq, heq]

def Extends (table base : SymbolTable) : Prop :=
  ∀ name a, base.address? name = some a → table.address? name = some a

theorem Extends.refl (table : SymbolTable) : table.Extends table := fun _ _ h => h

theorem Extends.trans {t u v : SymbolTable} (h : t.Extends u) (h' : u.Extends v) : t.Extends v :=
  fun name a ha => h name a (h' name a ha)

theorem extends_insert {table : SymbolTable} {name : String} (a : Word)
    (h : table.address? name = none) : Extends (table.insert name a) table := by
  intro other b hb
  rw [address?_insert_ne a, hb]
  rintro rfl
  cases h.symm.trans hb

/-- A table made from another by binding names that had no address. -/
inductive Grows (base : SymbolTable) : SymbolTable → Prop where
  | refl : Grows base base
  | insert {table : SymbolTable} {name : String} (a : Word) (h : Grows base table)
      (hname : table.address? name = none) : Grows base (table.insert name a)

theorem Grows.trans {t u v : SymbolTable} (h : t.Grows u) (h' : u.Grows v) : t.Grows v := by
  induction h' with
  | refl => exact h
  | insert a _ hname ih => exact ih.insert a hname

theorem Grows.extends {base table : SymbolTable} (h : base.Grows table) : table.Extends base := by
  induction h with
  | refl => exact .refl base
  | insert a _ hname ih => exact (extends_insert a hname).trans ih

end SymbolTable

open SymbolTable

namespace Labels

/-- What the first pass does at one statement. -/
theorem next_cases (l : Labels) (s : Numbered) :
    (s.statement.isInstruction ∧ l.next s = { l with address := l.address + 1 }) ∨
      ∃ name, s.statement = .label name ∧
        ((∃ a, l.table.address? name = some a) ∧
            l.next s = { l with errors := l.errors.push (.duplicateLabel s.line name) } ∨
          l.table.address? name = none ∧
            l.next s = { l with table := l.table.insert name l.address.toUInt16 }) := by
  obtain ⟨line, i⟩ := s
  cases i with
  | label name =>
    cases h : l.table.address? name with
    | some a => exact .inr ⟨name, rfl, .inl ⟨⟨a, h⟩, by simp only [next, h]⟩⟩
    | none => exact .inr ⟨name, rfl, .inr ⟨h, by simp only [next, h]⟩⟩
  | _ => exact .inl ⟨rfl, rfl⟩

variable (l : Labels) (source : List Numbered)

theorem address_run : (source.foldl next l).address =
    l.address + codeSize (source.map (·.statement)) := by
  induction source generalizing l with
  | nil => rfl
  | cons s source ih =>
    rw [List.foldl_cons, ih, List.map_cons, codeSize_cons]
    obtain ⟨hs, h⟩ | ⟨name, hs, ⟨-, h⟩ | ⟨-, h⟩⟩ := next_cases l s
    · simp only [h, hs, if_true]
      omega
    · simp [h, hs, Statement.isInstruction]
    · simp [h, hs, Statement.isInstruction]

theorem grows_run : l.table.Grows (source.foldl next l).table := by
  induction source generalizing l with
  | nil => exact .refl
  | cons s source ih =>
    refine Grows.trans ?_ (ih (l.next s))
    obtain ⟨-, h⟩ | ⟨name, -, ⟨-, h⟩ | ⟨hfree, h⟩⟩ := next_cases l s
    · rw [h]
      exact .refl
    · rw [h]
      exact .refl
    · rw [h]
      exact .insert _ .refl hfree

/-- A symbol that no label binds keeps its meaning. -/
theorem address?_run {name : String} (h : name ∉ labelNames (source.map (·.statement))) :
    (source.foldl next l).table.address? name = l.table.address? name := by
  induction source generalizing l with
  | nil => rfl
  | cons s source ih =>
    rw [List.map_cons, labelNames_cons, List.mem_append, not_or] at h
    rw [List.foldl_cons, ih (l.next s) h.2]
    obtain ⟨-, heq⟩ | ⟨label, hs, ⟨-, heq⟩ | ⟨-, heq⟩⟩ := next_cases l s
    · rw [heq]
    · rw [heq]
    · rw [heq]
      refine address?_insert_ne _ ?_
      rintro rfl
      exact h.1 (by simp [hs, labelNames])

/-- A label is bound to the number of words before it. -/
theorem address?_label (line : Nat) {name : String} (before after : List Numbered)
    (hfree : l.table.address? name = none)
    (hfirst : name ∉ labelNames (before.map (·.statement))) :
    ((before ++ ⟨line, .label name⟩ :: after).foldl next l).table.address? name =
      some (l.address + codeSize (before.map (·.statement))).toUInt16 := by
  rw [List.foldl_append, List.foldl_cons]
  apply (grows_run _ _).extends
  rw [← address?_run l before hfirst] at hfree
  simp only [next, hfree, address_run]
  exact address?_insert_self _ hfree

/-- The first pass reports nothing exactly if every label is new where it is declared. -/
theorem errors_run : (source.foldl next l).errors = #[] ↔
    l.errors = #[] ∧ (labelNames (source.map (·.statement))).Nodup ∧
      ∀ name ∈ labelNames (source.map (·.statement)), l.table.address? name = none := by
  induction source generalizing l with
  | nil => simp [labelNames]
  | cons s source ih =>
    rw [List.foldl_cons, ih, List.map_cons, labelNames_cons]
    obtain ⟨hs, heq⟩ | ⟨name, hs, ⟨⟨a, hbound⟩, heq⟩ | ⟨hfree, heq⟩⟩ := next_cases l s
    · simp only [labelNames_instruction hs, heq, List.nil_append]
    · have hlabel : name ∈ labelNames [s.statement] ++ labelNames (source.map (·.statement)) := by
        simp [hs, labelNames]
      refine iff_of_false ?_ fun h => ?_
      · simp [heq]
      · cases (h.2.2 name hlabel).symm.trans hbound
    · have hnew (n : String) : (l.next s).table.address? n = none ↔
          name ≠ n ∧ l.table.address? n = none := by
        rw [heq]
        exact address?_insert_eq_none _ hfree
      have herrors : (l.next s).errors = l.errors := by rw [heq]
      simp only [hnew, herrors, hs, labelNames_label, List.singleton_append, List.nodup_cons,
        List.forall_mem_cons, hfree, true_and]
      grind

theorem duplicateLabel_run {e : Error} (h : e ∈ (source.foldl next l).errors) :
    e ∈ l.errors ∨ ∃ line name, e = .duplicateLabel line name := by
  induction source generalizing l with
  | nil => exact .inl h
  | cons s source ih =>
    obtain h | h := ih (l.next s) h
    · obtain ⟨-, heq⟩ | ⟨name, -, ⟨-, heq⟩ | ⟨-, heq⟩⟩ := next_cases l s
      · rw [heq] at h
        exact .inl h
      · rw [heq, Array.mem_push] at h
        exact h.imp_right fun h => ⟨_, _, h⟩
      · rw [heq] at h
        exact .inl h
    · exact .inr h

end Labels

def Bindable (code : List Statement) : Prop :=
  (labelNames code).Nodup ∧ ∀ name ∈ labelNames code, predefined.lookup name = none

theorem address?_empty (name : String) :
    address? ∅ name = none ↔ predefined.lookup name = none := by
  rw [address?_eq_none, and_iff_left Std.HashMap.getElem?_empty]

theorem errors_labels (source : List Numbered) :
    (source.foldl Labels.next {}).errors = #[] ↔ Bindable (source.map (·.statement)) := by
  rw [Labels.errors_run, eq_self, true_and]
  exact and_congr_right fun _ => forall₂_congr fun name _ => address?_empty name

def Labels.report (l : Labels) : List Error :=
  l.errors.toList ++ if romSize < l.address then [.tooLarge l.address] else []

theorem bindLabels_eq (source : List Numbered) :
    bindLabels source = if (source.foldl Labels.next {}).report.isEmpty then
      .ok (source.foldl Labels.next {}).table else .error (source.foldl Labels.next {}).report := rfl

theorem report_eq_nil (source : List Numbered) : (source.foldl Labels.next {}).report = [] ↔
    Bindable (source.map (·.statement)) ∧ codeSize (source.map (·.statement)) ≤ romSize := by
  have haddress := Labels.address_run {} source
  rw [Nat.zero_add] at haddress
  rw [Labels.report, List.append_eq_nil_iff, Array.toList_eq_nil_iff, errors_labels, haddress]
  simp

theorem bindLabels_eq_ok {source : List Numbered} {table : SymbolTable} :
    bindLabels source = .ok table ↔ (Bindable (source.map (·.statement)) ∧
      codeSize (source.map (·.statement)) ≤ romSize) ∧
      (source.foldl Labels.next {}).table = table := by
  rw [← report_eq_nil, bindLabels_eq]
  split <;> simp_all

/-- A duplicate is reported exactly if some label is not new where it is declared. -/
theorem bindLabels_duplicate {source : List Numbered} :
    (∃ errors line name, bindLabels source = .error errors ∧ .duplicateLabel line name ∈ errors) ↔
      ¬ Bindable (source.map (·.statement)) := by
  rw [← errors_labels, bindLabels_eq]
  constructor
  · rintro ⟨errors, line, name, herror, hmem⟩ hnone
    split at herror
    next => cases herror
    next =>
      cases herror
      simp [Labels.report, hnone] at hmem
  · intro hsome
    obtain ⟨e, he⟩ := List.exists_mem_of_ne_nil _ (mt Array.toList_eq_nil_iff.1 hsome)
    obtain h | ⟨line, name, rfl⟩ := Labels.duplicateLabel_run {} source (Array.mem_toList_iff.1 he)
    · exact absurd h (Array.not_mem_empty _)
    · have hreport := List.mem_append_left (if romSize < (source.foldl Labels.next {}).address then
        [Error.tooLarge (source.foldl Labels.next {}).address] else []) he
      refine ⟨_, line, name, if_neg ?_, hreport⟩
      rw [List.isEmpty_iff]
      exact List.ne_nil_of_mem hreport

theorem mem_report {source : List Numbered} {e : Error}
    (h : e ∈ (source.foldl Labels.next {}).report) :
    (∃ line name, e = .duplicateLabel line name) ∨ e = .tooLarge (codeSize (source.map (·.statement))) := by
  obtain h | h := List.mem_append.1 h
  · obtain h | h := Labels.duplicateLabel_run {} source (Array.mem_toList_iff.1 h)
    · exact absurd h (Array.not_mem_empty _)
    · exact .inl h
  · split at h
    next =>
      rw [List.mem_singleton.1 h, Labels.address_run, Nat.zero_add]
      exact .inr rfl
    next => cases h

/-- Once a source is read, its labels decide the rest. -/
theorem assemble_of_read {source : String} {lines : List Numbered} (h : read source = .ok lines) :
    assemble source = bindLabels lines >>= fun labels => .ok (encodeWith labels lines) := by
  rw [assemble, h]
  rfl

theorem exists_assemble_iff {source : String} {lines : List Numbered} (h : read source = .ok lines) :
    (∃ p, assemble source = .ok p) ↔
      Bindable (lines.map (·.statement)) ∧ codeSize (lines.map (·.statement)) ≤ romSize := by
  rw [assemble_of_read h, ← report_eq_nil, bindLabels_eq, ← List.isEmpty_iff]
  split
  next hempty => exact iff_of_true ⟨_, rfl⟩ hempty
  next hsome => exact iff_of_false (fun ⟨p, hp⟩ => by cases hp) hsome

/-- A source that is read can fail only for its labels or its size. -/
theorem mem_errors_of_read {source : String} {lines : List Numbered} (h : read source = .ok lines)
    {errors : List Error} (herrors : assemble source = .error errors) {e : Error} (he : e ∈ errors) :
    (∃ line name, e = .duplicateLabel line name) ∨ e = .tooLarge (codeSize (lines.map (·.statement))) := by
  rw [assemble_of_read h, bindLabels_eq] at herrors
  split at herrors
  next => cases herrors
  next =>
    cases herrors
    exact mem_report he

def Statement.symbol? : Statement → Option String
  | .symbol name => some name
  | _ => none

def symbolCount (code : List Statement) : Nat := code.countP (·.symbol?.isSome)

def references (code : List Statement) : List String := code.filterMap (·.symbol?)

theorem length_firstUses_le (code : List Statement) (q : String → Bool) :
    ((references code).filter q).eraseDups.length ≤ symbolCount code := by
  calc ((references code).filter q).eraseDups.length
      ≤ ((references code).filter q).length :=
        ((nodup_eraseDups _).subperm fun _ => List.mem_eraseDups.1).length_le
    _ ≤ (references code).length := List.length_filter_le _ _
    _ = symbolCount code := List.length_filterMap_eq_countP

/-- The names that a second pass over some code will bind, in the order in which it will do so. -/
def unbound (table : SymbolTable) (code : List Statement) : List String :=
  ((references code).filter fun name => table.address? name = none).eraseDups

theorem unbound_bound {table : SymbolTable} {name : String} {a : Word}
    (h : table.address? name = some a) (code : List Statement) :
    unbound table (.symbol name :: code) = unbound table code := by
  simp [unbound, references, Statement.symbol?, h]

theorem unbound_free {table : SymbolTable} {name : String} (h : table.address? name = none) (a : Word)
    (code : List Statement) :
    unbound table (.symbol name :: code) = name :: unbound (table.insert name a) code := by
  have hfilter : ∀ other : String, (!other == name && decide (table.address? other = none)) =
      decide (address? (table.insert name a) other = none) := by
    intro other
    rw [Bool.eq_iff_iff, Bool.and_eq_true, decide_eq_true_eq, decide_eq_true_eq,
      address?_insert_eq_none a h, Bool.not_eq_true', beq_eq_false_iff_ne, ne_comm]
  have hreferences : references (.symbol name :: code) = name :: references code := rfl
  rw [unbound, hreferences, List.filter_cons_of_pos (by simp [h]), List.eraseDups_cons,
    List.filter_filter, unbound]
  simp only [hfilter]

namespace Encoding

theorem next_bound {e : Encoding} {name : String} {a : Word} (h : e.table.address? name = some a) :
    e.next (.symbol name) = e.push (.address a) := by
  simp only [next, h]

theorem next_free {e : Encoding} {name : String} (h : e.table.address? name = none) :
    e.next (.symbol name) = ⟨e.table.insert name e.free, e.free + 1,
      e.words.push (Instruction.address e.free).encode⟩ := by
  simp only [next, h]

theorem grows_next (e : Encoding) (i : Statement) : e.table.Grows (e.next i).table := by
  cases i with
  | symbol name =>
    cases h : e.table.address? name with
    | some a =>
      rw [next_bound h]
      exact .refl
    | none =>
      rw [next_free h]
      exact .insert _ .refl h
  | _ => exact .refl

theorem grows_run (e : Encoding) (code : List Statement) :
    e.table.Grows (code.foldl next e).table := by
  induction code generalizing e with
  | nil => exact .refl
  | cons i code ih => exact (grows_next e i).trans (ih (e.next i))

/-- A statement adds its word under every table that keeps the bindings made so far. -/
theorem words_next {e : Encoding} {i : Statement} {table : SymbolTable}
    (h : table.Extends (e.next i).table) :
    (e.next i).words.toList = e.words.toList ++ [i].filterMap (·.word? table) ∧
      (i.isInstruction → (i.word? table).isSome) := by
  cases i with
  | symbol name =>
    cases hname : e.table.address? name with
    | some a =>
      have ha : table.address? name = some a := h name a ((grows_next e _).extends name a hname)
      rw [next_bound hname]
      simp [push, Statement.word?, ha]
    | none =>
      rw [next_free hname] at h ⊢
      have ha : table.address? name = some e.free := h name _ (address?_insert_self _ hname)
      simp [Statement.word?, ha]
  | value v => simp [next, push, Statement.word?]
  | compute c => simp [next, push, Statement.word?]
  | label name => simp [next, Statement.word?, Statement.isInstruction]

theorem words_run {e : Encoding} {code : List Statement} {table : SymbolTable}
    (h : table.Extends (code.foldl next e).table) :
    (code.foldl next e).words.toList = e.words.toList ++ code.filterMap (·.word? table) ∧
      ∀ i ∈ code, i.isInstruction → (i.word? table).isSome := by
  induction code generalizing e with
  | nil => simp
  | cons i code ih =>
    obtain ⟨hword, hbound⟩ := words_next (h.trans (grows_run (e.next i) code).extends)
    obtain ⟨hwords, hrest⟩ := ih h
    refine ⟨?_, List.forall_mem_cons.2 ⟨hbound, hrest⟩⟩
    rw [List.foldl_cons, hwords, hword, List.append_assoc, ← List.filterMap_append]
    rfl

/-- The second pass keeps what is bound and numbers the names that are not from the first free cell
on. -/
theorem address?_run (e : Encoding) (code : List Statement) (name : String) :
    (code.foldl next e).table.address? name =
      (e.table.address? name).or
        (((unbound e.table code).idxOf? name).map fun j => e.free + j.toUInt16) := by
  induction code generalizing e with
  | nil => simp [unbound, references]
  | cons i code ih =>
    rw [List.foldl_cons, ih]
    -- Only a free symbol changes the table. It is the first of the unbound names and leaves the rest of
    -- them to the pass over the remaining code.
    cases i with
    | symbol other =>
      cases hother : e.table.address? other with
      | some a =>
        rw [next_bound hother, unbound_bound hother]
        rfl
      | none =>
        rw [next_free hother, unbound_free hother e.free, List.idxOf?_cons]
        by_cases heq : other = name
        · subst heq
          simp [address?_insert_self e.free hother, hother]
        · simp only [address?_insert_ne e.free heq, beq_eq_false_iff_ne.2 heq, Bool.false_eq_true,
            if_false, Option.map_map]
          congr 2
          funext j
          simp [UInt16.add_assoc, UInt16.add_comm]
    | _ => rfl

end Encoding

structure Program.Assembles (p : Program) (code : List Statement) : Prop where
  size : p.words.size = codeSize code
  fits : codeSize code ≤ romSize
  placed : CodeAt p.words p.symbols 0 code
  labels : ∀ before name after, code = before ++ .label name :: after →
    p.symbols.address? name = some (codeSize before).toUInt16
  unlabelled : ∀ name a, p.symbols.address? name = some a → predefined.lookup name = none →
    name ∉ labelNames code → a.toNat < firstVariable.toNat + symbolCount code

theorem length_words {table : SymbolTable} {code : List Statement}
    (h : ∀ i ∈ code, i.isInstruction → (i.word? table).isSome) :
    (code.filterMap (·.word? table)).length = codeSize code := by
  rw [List.length_filterMap_eq_countP, codeSize]
  refine List.countP_congr fun i hi => ⟨fun hword => ?_, h i hi⟩
  cases i with
  | label name => cases hword
  | _ => rfl

theorem symbolCount_le (code : List Statement) : symbolCount code ≤ codeSize code := by
  refine List.countP_mono_left fun i _ h => ?_
  cases i with
  | symbol name => rfl
  | _ => cases h

theorem encodeWith_eq (labels : SymbolTable) (source : List Numbered) :
    encodeWith labels source =
      ⟨((source.map (·.statement)).foldl Encoding.next { table := labels }).words,
        ((source.map (·.statement)).foldl Encoding.next { table := labels }).table⟩ := by
  rw [encodeWith, List.foldl_map]

theorem assembles_encodeWith {source : List Numbered} {labels : SymbolTable}
    (h : bindLabels source = .ok labels) :
    (encodeWith labels source).Assembles (source.map (·.statement)) := by
  obtain ⟨⟨⟨hnodup, hnew⟩, hfits⟩, rfl⟩ := bindLabels_eq_ok.1 h
  let start : Encoding := { table := (source.foldl Labels.next {}).table }
  obtain ⟨hwords, hbound⟩ := Encoding.words_run (e := start) (Extends.refl _)
  rw [encodeWith_eq]
  have hromSize : romSize = 32768 := rfl
  have hsize : UInt16.size = 65536 := rfl
  refine ⟨?_, hfits, ?_, ?_, ?_⟩
  · rw [← Array.length_toList, hwords]
    exact length_words hbound
  · rw [← List.append_nil ((source.map (·.statement)).filterMap _)] at hwords
    exact codeAt_words hwords hbound (by rw [Array.toList_empty, List.length_nil]; omega)
  · intro before name after hcode
    apply (Encoding.grows_run start _).extends
    obtain ⟨ns, rest, rfl, rfl, hrest⟩ := List.map_eq_append_iff.1 hcode
    obtain ⟨n, ms, rfl, hn, rfl⟩ := List.map_eq_cons_iff.1 hrest
    obtain ⟨line, statement⟩ := n
    cases hn
    rw [hcode, labelNames_append, labelNames_cons, labelNames_label] at hnodup hnew
    have hfirst : name ∉ labelNames (ns.map (·.statement)) := fun hmem =>
      (List.nodup_append.1 hnodup).2.2 name hmem name List.mem_cons_self rfl
    have hbind := Labels.address?_label {} line ns ms
      ((address?_empty name).2 (hnew name (by simp))) hfirst
    rwa [Nat.zero_add] at hbind
  · intro name a ha hname hlabel
    have hfree : start.table.address? name = none := by
      rw [Labels.address?_run _ _ hlabel, address?_empty]
      exact hname
    have ha : ((source.map (·.statement)).foldl Encoding.next start).table.address? name = some a := ha
    rw [Encoding.address?_run, hfree, Option.none_or] at ha
    obtain ⟨j, hj, rfl⟩ := Option.map_eq_some_iff.1 ha
    obtain ⟨hlt, -⟩ := List.idxOf?_eq_some_iff.1 hj
    have hcount : (unbound start.table (source.map (·.statement))).length ≤
        symbolCount (source.map (·.statement)) := length_firstUses_le _ _
    have hfirst : start.free = firstVariable := rfl
    rw [UInt16.toNat_add, Nat.toUInt16_eq, UInt16.toNat_ofNat', hfirst]
    omega

end HackStack.Assembly
