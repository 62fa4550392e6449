import HackStack.Proofs.Assembling
import HackStack.Proofs.Reading

set_option autoImplicit false

namespace HackStack.Assembly

open SymbolTable

/-- The names that some code loads and that are neither labels of it nor predefined, each once and in
the order of first use. -/
def variableNames (code : List Statement) : List String :=
  ((references code).filter fun name =>
    name ∉ labelNames code ∧ predefined.lookup name = none).eraseDups

theorem mem_variableNames {code : List Statement} {name : String} :
    name ∈ variableNames code ↔
      name ∈ references code ∧ name ∉ labelNames code ∧ predefined.lookup name = none := by
  rw [variableNames, List.mem_eraseDups, List.mem_filter, decide_eq_true_eq]

theorem length_variableNames_le (code : List Statement) : (variableNames code).length ≤ codeSize code :=
  Nat.le_trans (length_firstUses_le code _) (symbolCount_le code)

theorem idxOf?_variableNames {code : List Statement} {name : String} {j : Nat} :
    (variableNames code).idxOf? name = some j ↔ (variableNames code)[j]? = some name := by
  rw [List.idxOf?_eq_some_iff, List.getElem?_eq_some_iff]
  refine exists_congr fun hj => and_iff_left_of_imp fun heq i hi hother => ?_
  exact List.pairwise_iff_getElem.1 (nodup_eraseDups _) i j _ hj hi (hother.trans heq.symm)

namespace SymbolTable

def Own (table : SymbolTable) : Prop := ∀ name ∈ table, predefined.lookup name = none

theorem own_empty : Own ∅ := fun _ h => absurd h Std.HashMap.not_mem_empty

theorem Grows.own {base table : SymbolTable} (h : base.Grows table) (hbase : base.Own) :
    table.Own := by
  induction h with
  | refl => exact hbase
  | insert a _ hname ih =>
    intro other hother
    obtain heq | hmem := Std.HashMap.mem_insert.1 hother
    · obtain rfl := eq_of_beq heq
      exact (address?_eq_none.1 hname).1
    · exact ih other hmem

end SymbolTable

namespace Labels

/-- The first pass binds the labels and nothing else. -/
theorem address?_run_eq_none (l : Labels) (source : List Numbered) (name : String) :
    (source.foldl next l).table.address? name = none ↔
      name ∉ labelNames (source.map (·.statement)) ∧ l.table.address? name = none := by
  induction source generalizing l with
  | nil => simp [labelNames]
  | cons s source ih =>
    rw [List.foldl_cons, ih, List.map_cons, labelNames_cons, List.mem_append, not_or, and_assoc]
    obtain ⟨hs, heq⟩ | ⟨label, hs, ⟨⟨a, hbound⟩, heq⟩ | ⟨hfree, heq⟩⟩ := next_cases l s
    · simp [heq, labelNames_instruction hs]
    · simp only [heq, hs, labelNames_label, List.mem_singleton]
      grind
    · simp only [heq, hs, labelNames_label, List.mem_singleton, address?_insert_eq_none _ hfree]
      grind

end Labels

structure Program.Binds (p : Program) (code : List Statement) : Prop extends p.Assembles code where
  own : p.symbols.Own
  fresh : ∀ name ∈ labelNames code, predefined.lookup name = none
  numbered : ∀ name, predefined.lookup name = none → name ∉ labelNames code →
    p.symbols[name]? = ((variableNames code).idxOf? name).map fun j => firstVariable + j.toUInt16

theorem binds_encodeWith {source : List Numbered} {labels : SymbolTable}
    (h : bindLabels source = .ok labels) :
    (encodeWith labels source).Binds (source.map (·.statement)) := by
  have hassembles := assembles_encodeWith h
  obtain ⟨⟨⟨-, hnew⟩, -⟩, rfl⟩ := bindLabels_eq_ok.1 h
  refine ⟨hassembles, ?_, hnew, fun name hname hlabel => ?_⟩
  · rw [encodeWith_eq]
    exact (Encoding.grows_run _ _).own ((Labels.grows_run {} source).own own_empty)
  · -- A name is left to the second pass exactly if it is neither a label nor predefined.
    have hfree (other : String) : (source.foldl Labels.next {}).table.address? other = none ↔
        other ∉ labelNames (source.map (·.statement)) ∧ predefined.lookup other = none := by
      rw [Labels.address?_run_eq_none, address?_empty]
    have hunbound : unbound (source.foldl Labels.next {}).table (source.map (·.statement)) =
        variableNames (source.map (·.statement)) := by
      simp only [unbound, variableNames, hfree]
    rw [← address?_of_not_predefined hname, encodeWith_eq, Encoding.address?_run,
      (hfree name).2 ⟨hlabel, hname⟩, hunbound]
    rfl

theorem binds_of_assemble {source : String} {p : Program} (h : assemble source = .ok p) :
    ∃ lines, read source = .ok lines ∧ p.Binds (lines.map (·.statement)) := by
  obtain ⟨lines, hread, h⟩ := bind_eq_ok h
  obtain ⟨labels, hlabels, h⟩ := bind_eq_ok h
  cases h
  exact ⟨lines, hread, binds_encodeWith hlabels⟩

theorem lookup_predefined_le {name : String} {a : Word} (h : predefined.lookup name = some a) :
    a.toNat ≤ Word.maxLiteral := by
  have hsmall : ∀ p ∈ predefined, p.2.toNat ≤ Word.maxLiteral := by decide
  obtain ⟨xs, ys, heq, -⟩ := List.lookup_eq_some_iff.1 h
  exact hsmall (name, a) (by simp [heq])

namespace Program

variable {p : Program} {code before after : List Statement}

theorem Assembles.codeSize_le (h : p.Assembles code) (hcode : code = before ++ after) :
    codeSize before ≤ 32768 := by
  have hfits := h.fits
  rw [hcode, codeSize_append] at hfits
  exact Nat.le_of_add_right_le hfits

theorem Assembles.toNat_codeSize (h : p.Assembles code) (hcode : code = before ++ after) :
    (codeSize before).toUInt16.toNat = codeSize before := by
  have hle := h.codeSize_le hcode
  exact UInt16.toNat_ofNat_of_lt' (Nat.lt_of_le_of_lt hle (by decide))

/-- Every instruction has its word at the number of words before it. -/
theorem Assembles.word (h : p.Assembles code) {i : Statement} (hcode : code = before ++ i :: after)
    (hi : i.isInstruction) :
    ∃ w, i.word? p.symbols = some w ∧ p.words[codeSize before]? = some w := by
  have hplaced := h.placed
  rw [hcode, codeAt_append, UInt16.zero_add] at hplaced
  simp only [CodeAt, if_pos hi, h.toNat_codeSize hcode] at hplaced
  exact hplaced.2.1

namespace Binds

variable (h : p.Binds code) {name : String}
include h

theorem label_address (hcode : code = before ++ .label name :: after) :
    ∃ a, p.symbols[name]? = some a ∧ a.toNat = codeSize before := by
  have hname := h.fresh name (mem_labelNames.2 (hcode ▸ by simp))
  have haddress := h.labels before name after hcode
  rw [address?_of_not_predefined hname] at haddress
  exact ⟨_, haddress, h.toNat_codeSize hcode⟩

theorem variable_address {j : Nat} (hj : (variableNames code)[j]? = some name) :
    ∃ a, p.symbols[name]? = some a ∧ a.toNat = 16 + j := by
  obtain ⟨-, hlabel, hname⟩ := mem_variableNames.1 (List.mem_of_getElem? hj)
  have hlt : j < (variableNames code).length := (List.getElem?_eq_some_iff.1 hj).1
  have hlength := length_variableNames_le code
  have hfits : codeSize code ≤ 32768 := h.fits
  refine ⟨_, by rw [h.numbered name hname hlabel, idxOf?_variableNames.2 hj]; rfl, ?_⟩
  have hbase : firstVariable.toNat = 16 := rfl
  rw [UInt16.toNat_add, hbase, Nat.toUInt16_eq, UInt16.toNat_ofNat']
  omega

theorem mem_symbols : name ∈ p.symbols ↔ name ∈ labelNames code ∨ name ∈ variableNames code := by
  rw [Std.HashMap.mem_iff_isSome_getElem?]
  constructor
  · intro hsome
    by_cases hlabel : name ∈ labelNames code
    · exact .inl hlabel
    · have hname := h.own name (Std.HashMap.mem_iff_isSome_getElem?.2 hsome)
      rw [h.numbered name hname hlabel, Option.isSome_map, List.isSome_idxOf?] at hsome
      exact .inr hsome
  · rintro (hlabel | hvariable)
    · obtain ⟨before, after, hcode⟩ := List.append_of_mem (mem_labelNames.1 hlabel)
      obtain ⟨a, ha, -⟩ := h.label_address hcode
      rw [ha]
      rfl
    · obtain ⟨j, hj⟩ := List.mem_iff_getElem?.1 hvariable
      obtain ⟨a, ha, -⟩ := h.variable_address hj
      rw [ha]
      rfl

/-- A reference to a predefined name holds the address that the name always had. -/
theorem word_predefined {a : Word} (hname : predefined.lookup name = some a)
    (hcode : code = before ++ .symbol name :: after) : p.words[codeSize before]? = some a := by
  obtain ⟨w, hw, hword⟩ := h.word hcode rfl
  rw [Statement.word?, address?_of_predefined hname, Option.map_some, Instruction.encode,
    Word.literal_and (lookup_predefined_le hname)] at hw
  exact hword.trans hw.symm

end Binds

end Program

/-- The symbols of a program are its labels and its variables, bound as the lines of its source say, and a
predefined name keeps its address. -/
theorem symbols_bound_by_position {source : String} {p : Program} (h : assemble source = .ok p) :
    ∃ lines, read source = .ok lines ∧
      let code := lines.map (·.statement)
      p.words.size = codeSize code ∧ p.words.size ≤ 32768 ∧
      (∀ name, name ∈ p.symbols ↔ name ∈ labelNames code ∨
        name ∈ references code ∧ name ∉ labelNames code ∧ predefined.lookup name = none) ∧
      (∀ before name after, code = before ++ .label name :: after →
        ∃ a, p.symbols[name]? = some a ∧ a.toNat = codeSize before) ∧
      (∀ j name, (variableNames code)[j]? = some name →
        ∃ a, p.symbols[name]? = some a ∧ a.toNat = 16 + j) ∧
      (∀ name a, predefined.lookup name = some a → name ∉ p.symbols ∧ name ∉ labelNames code ∧
        ∀ before after, code = before ++ .symbol name :: after →
          p.words[codeSize before]? = some a) := by
  obtain ⟨lines, hread, hbinds⟩ := binds_of_assemble h
  refine ⟨lines, hread, hbinds.size, hbinds.size ▸ hbinds.fits, fun name => ?_,
    fun _ _ _ => hbinds.label_address, fun _ _ => hbinds.variable_address, fun name a hname => ⟨?_, ?_, ?_⟩⟩
  · rw [hbinds.mem_symbols, mem_variableNames]
  · intro hmem
    cases hname.symm.trans (hbinds.own name hmem)
  · intro hmem
    cases hname.symm.trans (hbinds.fresh name hmem)
  · exact fun _ _ => hbinds.word_predefined hname

section Sample

def layoutSource : String :=
  "@END // forward\n0;JMP\n@x\nM=1\n(A)\n(B)\n  @y\n@x\n\n@SP\n@A\n(END)\n"

def layoutLines : List Numbered :=
  [⟨1, .symbol "END"⟩, ⟨2, .goto⟩, ⟨3, .symbol "x"⟩, ⟨4, .assign .toM .one⟩, ⟨5, .label "A"⟩,
   ⟨6, .label "B"⟩, ⟨7, .symbol "y"⟩, ⟨8, .symbol "x"⟩, ⟨10, .symbol "SP"⟩, ⟨11, .symbol "A"⟩,
   ⟨12, .label "END"⟩]

theorem layoutSource_read : read layoutSource = .ok layoutLines := rfl

theorem exists_assemble_layoutSource : ∃ p, assemble layoutSource = .ok p := by
  rw [exists_assemble_iff layoutSource_read, Bindable]
  decide

/-- The program of the source has eight words. Its last label is the address after them, the two labels
before them share one, and the second variable has the second cell. -/
theorem symbols_bound_layoutSource : ∃ p, assemble layoutSource = .ok p ∧ p.words.size = 8 ∧
    (∃ a, p.symbols["END"]? = some a ∧ a.toNat = 8) ∧
    (∃ a, p.symbols["A"]? = some a ∧ a.toNat = 4) ∧ (∃ a, p.symbols["B"]? = some a ∧ a.toNat = 4) ∧
    (∃ a, p.symbols["y"]? = some a ∧ a.toNat = 17) ∧ "SP" ∉ p.symbols ∧ p.words[6]? = some 0 := by
  obtain ⟨p, hp⟩ := exists_assemble_layoutSource
  obtain ⟨lines, hread, hsize, -, -, hlabel, hvariable, hpredefined⟩ := symbols_bound_by_position hp
  cases layoutSource_read.symm.trans hread
  let code := layoutLines.map (·.statement)
  obtain ⟨hSP, -, hword⟩ := hpredefined "SP" 0 rfl
  exact ⟨p, hp, hsize, hlabel (code.take 10) "END" [] rfl, hlabel (code.take 4) "A" (code.drop 5) rfl,
    hlabel (code.take 5) "B" (code.drop 6) rfl, hvariable 1 "y" rfl, hSP,
    hword (code.take 8) (code.drop 9) rfl⟩

end Sample

end HackStack.Assembly
