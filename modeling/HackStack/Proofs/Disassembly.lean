import HackStack.Proofs.Printing

set_option autoImplicit false

namespace HackStack

open Assembly Text

namespace Word

def Legal (w : Word) : Prop := w &&& 0x8000 = 0 ∨ w &&& 0x6000 = 0x6000

instance (w : Word) : Decidable w.Legal := inferInstanceAs (Decidable (_ ∨ _))

def marked (w : Word) : Word := if w &&& 0x8000 = 0 then w else 0xE000 ||| (w &&& 0x1FFF)

theorem marked_eq_self_iff (w : Word) : w.marked = w ↔ w.Legal := by
  unfold marked Legal
  split
  next hzero => simp [hzero]
  next hone =>
    have hfirst : w &&& 0x8000 = 0x8000 := (and_bit_cases w (i := 15) rfl).resolve_left hone
    rw [or_iff_right hone]
    constructor
    · intro h
      rw [← h, or_and, UInt16.and_assoc, show (0x1FFF &&& 0x6000 : Word) = 0 from rfl,
        UInt16.and_zero]
      rfl
    · intro h
      calc 0xE000 ||| (w &&& 0x1FFF)
          = (w &&& 0x8000 ||| w &&& 0x6000) ||| (w &&& 0x1FFF) := by rw [hfirst, h]; rfl
        _ = w &&& 0xFFFF := by rw [← and_or, ← and_or]; rfl
        _ = w := and_ones w

theorem map_marked_eq_self_iff (words : List Word) :
    words.map marked = words ↔ ∀ w ∈ words, Legal w := by
  calc words.map marked = words ↔ words.map marked = words.map id := by rw [List.map_id]
    _ ↔ ∀ w ∈ words, marked w = id w := List.map_inj_left
    _ ↔ ∀ w ∈ words, Legal w := forall₂_congr fun w _ => marked_eq_self_iff w

theorem and_literal_of_first {w : Word} (h : w &&& 0x8000 = 0) : w &&& 0x7FFF = w := by
  calc w &&& 0x7FFF = w &&& 0x8000 ||| w &&& 0x7FFF := by rw [h, UInt16.zero_or]
    _ = w &&& 0xFFFF := by rw [← and_or]; rfl
    _ = w := and_ones w

end Word

namespace Instruction

def statement : Instruction → Statement
  | .address v => .value v
  | .compute c => .compute c

theorem text_statement (i : Instruction) : i.statement.text = i.text := by
  cases i <;> rfl

theorem isInstruction_statement (i : Instruction) : i.statement.isInstruction := by
  cases i <;> rfl

theorem text_isLine {i : Instruction} (h : i.statement.Writable) : IsLine i.text.toList := by
  have hplain := Statement.text_plain h
  rw [text_statement] at hplain
  refine ⟨?_, not_mem_plain hplain, fun hmem => absurd (hplain _ hmem) (by decide)⟩
  cases i with
  | address v => simp [text]
  | compute c =>
    obtain ⟨x, rest, hstart, -⟩ := Statement.compute_start c
    rw [text, hstart]
    exact List.cons_ne_nil x rest

/-- An instruction that can be written is decoded from its word. -/
theorem decode?_encode {i : Instruction} (h : i.statement.Writable) : decode? i.encode = some i := by
  cases i with
  | address v =>
    have hv : v.toNat ≤ Word.maxLiteral := h
    rw [decode?, address_first, encode, Word.literal_and hv]
    rfl
  | compute c =>
    have hshift : ∀ comp ∈ Comp.all, comp.bits <<< 6 >>> 6 = comp.bits := by decide
    have hcomp : (compute c).encode >>> 6 &&& 0x7F = c.comp.bits := by
      rw [← hshift c.comp (Comp.mem_all _), ← compute_comp, UInt16.shiftRight_and]
      rfl
    rw [decode?, compute_first, hcomp, Comp.ofBits?_bits, dest_compute, jump_compute]
    rfl

/-- The decoder takes a word that starts with a one for the one that starts with three. -/
theorem encode_of_decode? {w : Word} {i : Instruction} (h : decode? w = some i) :
    i.encode = w.marked ∧ i.statement.Writable := by
  unfold decode? at h
  split at h
  next hfirst =>
    cases h
    have hzero : w &&& 0x8000 = 0 := eq_of_beq hfirst
    have hlow := Word.and_literal_of_first hzero
    have hlt := Word.address_lt w
    rw [hlow] at hlt
    exact ⟨by rw [Word.marked, if_pos hzero, encode, hlow], Nat.le_of_lt_succ hlt⟩
  next hfirst =>
    obtain ⟨comp, hcomp, rfl⟩ := Option.map_eq_some_iff.1 h
    have hone : w &&& 0x8000 ≠ 0 := fun hzero => hfirst (beq_iff_eq.2 hzero)
    refine ⟨?_, trivial⟩
    -- Each field of the encoding is cut out of the word and put back where it was.
    rw [Word.marked, if_neg hone, encode, Comp.bits_of_ofBits? hcomp, Dest.bits_ofBits,
      Jump.bits_ofBits, Word.shift_and_shift, Word.shift_and_shift, UInt16.or_assoc, UInt16.or_assoc,
      ← Word.and_or, ← Word.and_or]
    rfl

theorem encode_of_decoded {words : List Word} {code : List Instruction}
    (h : words.map decode? = code.map some) :
    code.map encode = words.map Word.marked ∧ ∀ i ∈ code, i.statement.Writable := by
  induction words generalizing code with
  | nil =>
    obtain rfl := List.map_eq_nil_iff.1 h.symm
    exact ⟨rfl, List.forall_mem_nil _⟩
  | cons w words ih =>
    obtain ⟨i, rest, rfl, hi, hrest⟩ := List.map_eq_cons_iff.1 h.symm
    obtain ⟨hencode, hwritable⟩ := encode_of_decode? hi.symm
    obtain ⟨hwords, hall⟩ := ih hrest.symm
    rw [List.map_cons, List.map_cons, hencode, hwords]
    exact ⟨rfl, List.forall_mem_cons.2 ⟨hwritable, hall⟩⟩

end Instruction

namespace Assembly

theorem Labels.table_run {source : List Numbered} (h : ∀ s ∈ source, s.statement.isInstruction)
    (l : Labels) : (source.foldl next l).table = l.table := by
  induction source generalizing l with
  | nil => rfl
  | cons s source ih =>
    obtain ⟨hs, hsource⟩ := List.forall_mem_cons.1 h
    rw [List.foldl_cons, ih hsource]
    obtain ⟨-, heq⟩ | ⟨name, hlabel, -⟩ := next_cases l s
    · rw [heq]
    · rw [hlabel] at hs
      cases hs

theorem Encoding.run_instructions (code : List Instruction) (e : Encoding) :
    (code.map (·.statement)).foldl next e =
      { e with words := e.words ++ (code.map (·.encode)).toArray } := by
  induction code generalizing e with
  | nil => simp
  | cons i code ih =>
    rw [List.map_cons, List.foldl_cons, ih]
    cases i <;> simp [Instruction.statement, next, push]

section Listing

/-- A source with the texts of some instructions, one a line, with or without an end of the last
line. -/
def Lists (source : String) (code : List Instruction) : Prop :=
  source = String.join (code.map fun i => i.text ++ "\n") ∨
    source = "\n".intercalate (code.map (·.text))

variable {source : String} {code : List Instruction} (hcode : ∀ i ∈ code, i.statement.Writable)
include hcode

theorem Lists.lines (h : Lists source code) : lines source.toList = code.map (·.text.toList) := by
  have htexts : ∀ t ∈ code.map (·.text), IsLine t.toList :=
    List.forall_mem_map.2 fun i hi => Instruction.text_isLine (hcode i hi)
  have hlines := @lines_of_texts _ htexts source
  rw [List.map_map, List.map_map] at hlines
  exact hlines h

theorem Lists.outcomes (h : Lists source code) :
    outcomes source.toList = (code.map (·.statement)).map .ok := by
  rw [Assembly.outcomes, h.lines hcode, List.filterMap_map, List.map_map, ← List.filterMap_eq_map]
  refine List.filterMap_congr fun i hi => ?_
  simp [outcome?, ← Instruction.text_statement, Statement.readLine_text (hcode i hi)]

/-- A listing is assembled to the words of its instructions. -/
theorem Lists.assemble (h : Lists source code) (hsize : code.length ≤ romSize) :
    assemble source = .ok ⟨(code.map (·.encode)).toArray, ∅⟩ := by
  obtain ⟨items, hread, hitems⟩ := exists_read_iff.2 (h.outcomes hcode)
  have hall : ∀ s ∈ code.map (·.statement), s.isInstruction :=
    List.forall_mem_map.2 fun i _ => i.isInstruction_statement
  have hlabels : labelNames (code.map (·.statement)) = [] :=
    List.eq_nil_iff_forall_not_mem.2 fun name hname => by cases hall _ (mem_labelNames.1 hname)
  have hcount : codeSize (code.map (·.statement)) = code.length := by
    rw [codeSize, List.countP_eq_length.2 hall, List.length_map]
  have htable : (items.foldl Labels.next {}).table = ∅ :=
    Labels.table_run (fun s hs => hall _ (hitems ▸ List.mem_map_of_mem hs)) {}
  have hbind : bindLabels items = .ok ∅ := by
    rw [bindLabels_eq_ok, hitems, hcount, Bindable, hlabels]
    exact ⟨⟨by simp, hsize⟩, htable⟩
  rw [assemble_of_read hread, hbind]
  change Except.ok (encodeWith ∅ items) = _
  rw [encodeWith_eq, hitems, Encoding.run_instructions]
  simp

end Listing

/-- Instructions that are listed and assembled come back from the words of the program. -/
theorem listed_instructions_round_trip {code : List Instruction} (hsize : code.length ≤ 32768)
    (haddress : ∀ v, .address v ∈ code → v.toNat ≤ 32767) {source : String}
    (hsource : Lists source code) :
    ∃ p, assemble source = .ok p ∧ p.symbols = ∅ ∧ p.words.toList = code.map (·.encode) ∧
      p.words.toList.map Instruction.decode? = code.map some := by
  have hcode : ∀ i ∈ code, i.statement.Writable := by
    intro i hi
    cases i with
    | address v => exact haddress v hi
    | compute c => trivial
  refine ⟨_, hsource.assemble hcode hsize, rfl, rfl, ?_⟩
  rw [List.map_map]
  exact List.map_congr_left fun i hi => Instruction.decode?_encode (hcode i hi)

def edgeInstructions : List Instruction :=
  [.address 32767, .compute ⟨⟨true, true, true⟩, .dOrY .m, ⟨true, true, false⟩⟩,
   .compute { comp := .zero }]

theorem listed_instructions_edge :
    ∃ p, assemble "@32767\nAMD=D|M;JLE\n0" = .ok p ∧ p.symbols = ∅ ∧
      p.words.toList = [0x7FFF, 0xF57E, 0xEA80] ∧
      p.words.toList.map Instruction.decode? = edgeInstructions.map some := by
  have haddress (v : Word) (hv : .address v ∈ edgeInstructions) : v.toNat ≤ 32767 := by
    have hedge : v = 32767 := by simpa [edgeInstructions] using hv
    rw [hedge]
    decide
  have hlists : Lists "@32767\nAMD=D|M;JLE\n0" edgeInstructions := .inr rfl
  exact listed_instructions_round_trip (by decide) haddress hlists

end Assembly

theorem Machine.step_illegal_iff {m : Machine} {w : Word} (hrun : m.status = .running)
    (hw : m.fetch = some w) : (∃ word pc, m.step = .error (.illegal word pc)) ↔ ¬ w.Legal := by
  have hstep (word pc : Word) :
      m.step = .error (.illegal word pc) ↔ m.refusal? w = some (.illegal word pc) := by
    simp only [step, fault?, hrun, hw, Option.bind_some]
    split <;> simp_all
  simp only [hstep, refusal?, Word.Legal]
  by_cases hfirst : w &&& 0x8000 = 0
  · simp [hfirst]
  · by_cases hlegal : w &&& 0x6000 = 0x6000
    · simp [hfirst, hlegal]
    · simp [hfirst, hlegal]

namespace Instruction

/-- A word that decodes is the word of its instruction exactly if it is legal, and a machine before
it calls it illegal exactly if it is not. So words that decode, listed and assembled again, come back
with three ones at the start of each computation, and unchanged exactly if all of them are legal. -/
theorem decoded_words_legal_iff {words : List Word} {code : List Instruction}
    (hdecode : words.map decode? = code.map some) :
    (∀ w ∈ words, ∀ i, decode? w = some i →
      (i.encode = w ↔ w.Legal) ∧ ∀ m : Machine, m.status = .running → m.fetch = some w →
        ((∃ word pc, m.step = .error (.illegal word pc)) ↔ ¬ w.Legal)) ∧
    (words.length ≤ 32768 → ∀ source, Lists source code →
      ∃ p, assemble source = .ok p ∧ p.symbols = ∅ ∧ p.words.toList = words.map Word.marked ∧
        (p.words.toList = words ↔ ∀ w ∈ words, w.Legal)) := by
  constructor
  · intro w _ i hi
    rw [(encode_of_decode? hi).1, Word.marked_eq_self_iff]
    exact ⟨Iff.rfl, fun m hrun hw => Machine.step_illegal_iff hrun hw⟩
  · intro hsize source hsource
    obtain ⟨hwords, hcode⟩ := encode_of_decoded hdecode
    have hlength : code.length = words.length := by
      simpa using congrArg List.length hwords
    refine ⟨_, hsource.assemble hcode (hlength ▸ hsize), rfl, hwords, ?_⟩
    rw [← Word.map_marked_eq_self_iff, ← hwords]

/-- A machine before a word that starts with a one and two zeros. -/
def straying : Machine where
  rom := #[0x8A80]
  status := .running

/-- The word decodes to the computation of zero, but the machine does not execute it, and the listing
of the computation is assembled to another word. -/
theorem decoded_words_straying :
    decode? 0x8A80 = some (.compute { comp := .zero }) ∧
      (compute { comp := .zero }).encode ≠ 0x8A80 ∧
      (∃ word pc, straying.step = .error (.illegal word pc)) ∧
      ∃ p, assemble "0" = .ok p ∧ p.words.toList = [0xEA80] := by
  have hdecode : decode? 0x8A80 = some (.compute { comp := .zero }) := by decide
  have hillegal : ¬ (0x8A80 : Word).Legal := by decide
  have hall : [0x8A80].map decode? = [compute { comp := .zero }].map some := by
    rw [List.map_singleton, hdecode, List.map_singleton]
  obtain ⟨hword, himage⟩ := decoded_words_legal_iff hall
  obtain ⟨hencode, hstep⟩ := hword 0x8A80 (List.mem_singleton_self _) _ hdecode
  obtain ⟨p, hp, -, hwords, -⟩ := himage (by decide) "0" (.inr rfl)
  exact ⟨hdecode, mt hencode.1 hillegal, (hstep straying rfl rfl).2 hillegal, p, hp, hwords⟩

end Instruction

end HackStack
