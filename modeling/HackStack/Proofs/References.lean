import HackStack.Proofs.Bindings
import HackStack.Proofs.Rendering

set_option autoImplicit false

/-! # Words of references

An address instruction holds fifteen bits, but a symbol may be bound to a larger address: a label behind
a program that fills the whole store is bound to 32768, and so is the variable number 32752. A reference
to such a symbol loses the high bit of the address. All other references hold the address itself. -/

namespace HackStack.Assembly

open SymbolTable

def OutOfReach (code : List Statement) (name : String) : Prop :=
  (∃ before after, code = before ++ .label name :: after ∧ codeSize before = 32768) ∨
    ∃ j, (variableNames code)[j]? = some name ∧ 32752 ≤ j

namespace Program.Binds

variable {p : Program} {code : List Statement} (h : p.Binds code) {name : String} {a : Word}
include h

theorem address?_of_getElem (ha : p.symbols[name]? = some a) : p.symbols.address? name = some a := by
  have hmem : name ∈ p.symbols := Std.HashMap.mem_iff_isSome_getElem?.2 (by rw [ha]; rfl)
  rw [address?_of_not_predefined (h.own name hmem), ha]

theorem address_cases (ha : p.symbols.address? name = some a) :
    predefined.lookup name = some a ∨
      (∃ before after, code = before ++ .label name :: after ∧ a.toNat = codeSize before) ∨
      ∃ j, (variableNames code)[j]? = some name ∧ a.toNat = 16 + j := by
  cases hname : predefined.lookup name with
  | some b =>
    left
    rw [← ha, address?_of_predefined hname]
  | none =>
    right
    rw [address?_of_not_predefined hname] at ha
    have hmem : name ∈ p.symbols := Std.HashMap.mem_iff_isSome_getElem?.2 (by rw [ha]; rfl)
    obtain hlabel | hvariable := h.mem_symbols.1 hmem
    · obtain ⟨before, after, hcode⟩ := List.append_of_mem (mem_labelNames.1 hlabel)
      obtain ⟨b, hb, hvalue⟩ := h.label_address hcode
      cases ha.symm.trans hb
      exact .inl ⟨before, after, hcode, hvalue⟩
    · obtain ⟨j, hj⟩ := List.mem_iff_getElem?.1 hvariable
      obtain ⟨b, hb, hvalue⟩ := h.variable_address hj
      cases ha.symm.trans hb
      exact .inr ⟨j, hj, hvalue⟩

theorem outOfReach_iff (ha : p.symbols.address? name = some a) :
    OutOfReach code name ↔ 32768 ≤ a.toNat := by
  constructor
  · rintro (⟨before, after, hcode, hfull⟩ | ⟨j, hj, hlarge⟩)
    · obtain ⟨b, hb, hvalue⟩ := h.label_address hcode
      cases ha.symm.trans (h.address?_of_getElem hb)
      omega
    · obtain ⟨b, hb, hvalue⟩ := h.variable_address hj
      cases ha.symm.trans (h.address?_of_getElem hb)
      omega
  · intro hlarge
    obtain hname | ⟨before, after, hcode, hvalue⟩ | ⟨j, hj, hvalue⟩ := h.address_cases ha
    · have hsmall : a.toNat ≤ 32767 := lookup_predefined_le hname
      omega
    · have hle := h.codeSize_le hcode
      exact .inl ⟨before, after, hcode, by omega⟩
    · exact .inr ⟨j, hj, by omega⟩

/-- The word of a reference holds the low fifteen bits of the address. -/
theorem reference_word {before after : List Statement} (hcode : code = before ++ .symbol name :: after) :
    ∃ a, p.symbols.address? name = some a ∧ p.words[codeSize before]? = some (a &&& 0x7FFF) := by
  obtain ⟨w, hw, hword⟩ := h.word hcode rfl
  obtain ⟨a, ha, rfl⟩ := Option.map_eq_some_iff.1 hw
  exact ⟨a, ha, hword⟩

end Program.Binds

theorem low_bits_eq_iff (a : Word) : a &&& 0x7FFF = a ↔ ¬ 32768 ≤ a.toNat := by
  rw [← UInt16.toNat_inj, Word.toNat_and_literal]
  omega

/-- The word of a reference is the address of its symbol exactly if the symbol is within reach, and
otherwise the address without its high bit. Hence references within reach that share a word share an
address. -/
theorem reference_word_eq_address_iff {source : String} {p : Program} (h : assemble source = .ok p) :
    ∃ lines, read source = .ok lines ∧
      let code := lines.map (·.statement)
      (∀ before name after, code = before ++ .symbol name :: after →
        ∃ a w, p.symbols.address? name = some a ∧ p.words[codeSize before]? = some w ∧
          w.toNat = a.toNat % 32768 ∧ (w = a ↔ ¬ OutOfReach code name)) ∧
      (∀ before name after before' name' after', code = before ++ .symbol name :: after →
        code = before' ++ .symbol name' :: after' →
        p.words[codeSize before]? = p.words[codeSize before']? →
        ¬ OutOfReach code name → ¬ OutOfReach code name' →
        p.symbols.address? name = p.symbols.address? name') := by
  obtain ⟨lines, hread, hbinds⟩ := binds_of_assemble h
  refine ⟨lines, hread, ?_, ?_⟩
  · intro before name after hcode
    obtain ⟨a, ha, hword⟩ := hbinds.reference_word hcode
    exact ⟨a, _, ha, hword, Word.toNat_and_literal a,
      by rw [low_bits_eq_iff, hbinds.outOfReach_iff ha]⟩
  · intro before name after before' name' after' hcode hcode' hsame hreach hreach'
    obtain ⟨a, ha, hword⟩ := hbinds.reference_word hcode
    obtain ⟨a', ha', hword'⟩ := hbinds.reference_word hcode'
    rw [hword, hword', (low_bits_eq_iff a).2 (mt (hbinds.outOfReach_iff ha).2 hreach),
      (low_bits_eq_iff a').2 (mt (hbinds.outOfReach_iff ha').2 hreach')] at hsame
    rw [ha, ha', hsame]

section Sample

def jumpBehind (n : Nat) : List Line :=
  .statement (.symbol "END") :: (List.replicate n (.statement .goto) ++ [.statement (.label "END")])

theorem statements_jumpBehind (n : Nat) :
    statements (jumpBehind n) = .symbol "END" :: (List.replicate n .goto ++ [.label "END"]) := by
  have hjumps : statements (List.replicate n (.statement .goto)) = List.replicate n .goto := by
    rw [← List.map_replicate, statements_map]
  rw [← hjumps]
  exact congrArg (Statement.symbol "END" :: ·) (statements_append _ _)

theorem writable_jumpBehind (n : Nat) : ∀ line ∈ jumpBehind n, line.Writable := by
  have hend : isSymbol "END".toList := by decide
  refine List.forall_mem_cons.2 ⟨hend, List.forall_mem_append.2 ⟨fun line hline => ?_, ?_⟩⟩
  · rw [List.eq_of_mem_replicate hline]
    trivial
  · exact List.forall_mem_singleton.2 hend

theorem codeSize_jumps (n : Nat) :
    codeSize (.symbol "END" :: List.replicate n .goto) = n + 1 := by
  rw [codeSize_cons, codeSize, List.countP_replicate]
  rfl

theorem exists_assemble_jumpBehind {n : Nat} (h : n < 32768) :
    ∃ p, assemble (render (jumpBehind n)) = .ok p := by
  have hlabels : labelNames (statements (jumpBehind n)) = ["END"] := by
    have hjumps : labelNames (List.replicate n Statement.goto) = [] :=
      List.filterMap_replicate_of_none rfl
    rw [statements_jumpBehind, labelNames_cons, labelNames_append, hjumps]
    rfl
  refine exists_assemble_render (writable_jumpBehind n) ?_ ?_
  · rw [Bindable, hlabels]
    decide
  · have hsize := codeSize_jumps n
    rw [statements_jumpBehind, ← List.cons_append, codeSize_append, hsize]
    exact h

/-- The jump to the end of a program of 32768 words is encoded as a jump to its start. -/
theorem reference_word_jumpBehind : ∃ p, assemble (render (jumpBehind 32767)) = .ok p ∧
    ∃ a w, p.symbols.address? "END" = some a ∧ p.words[0]? = some w ∧ a.toNat = 32768 ∧
      w.toNat = 0 ∧ w ≠ a := by
  obtain ⟨p, hp⟩ := exists_assemble_jumpBehind (n := 32767) (by decide)
  obtain ⟨lines, hread, hreference, -⟩ := reference_word_eq_address_iff hp
  obtain ⟨lines', hread', hbinds⟩ := binds_of_assemble hp
  cases hread.symm.trans hread'
  obtain ⟨lines', hread', hcode⟩ := read_render (writable_jumpBehind 32767)
  cases hread.symm.trans hread'
  rw [statements_jumpBehind] at hcode
  -- Before the label stand the reference and all jumps, which together fill the store.
  have hlabel : lines.map (·.statement) =
      (.symbol "END" :: List.replicate 32767 .goto) ++ .label "END" :: [] := hcode
  have hfull := codeSize_jumps 32767
  obtain ⟨a, w, ha, hw, hvalue, hiff⟩ := hreference [] "END" _ hcode
  obtain ⟨b, hb, hbound⟩ := hbinds.label_address hlabel
  cases ha.symm.trans (hbinds.address?_of_getElem hb)
  rw [hfull] at hbound
  refine ⟨p, hp, a, w, ha, hw, hbound, by rw [hvalue, hbound], fun heq => ?_⟩
  exact hiff.1 heq (.inl ⟨_, _, hlabel, hfull⟩)

end Sample

end HackStack.Assembly
