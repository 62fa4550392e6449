import HackStack.Proofs.Frames
import HackStack.Proofs.Generated
import HackStack.Proofs.Passages

set_option autoImplicit false

namespace HackStack

open Assembly Lowering Access

def Command.Readable (c : Command) : Prop :=
  ∃ file source commands, Command.read file source = .ok commands ∧ c ∈ commands.map (·.command)

theorem Command.Readable.wellFormed {c : Command} (h : c.Readable) : c.WellFormed := by
  obtain ⟨file, source, commands, hread, hc⟩ := h
  obtain ⟨d, hd, rfl⟩ := List.mem_map.1 hc
  exact (Command.read_sound hread d hd).1

namespace Segment

def register? : Segment → Option Word
  | .locals => some 1
  | .argument => some 2
  | .this => some 3
  | .that => some 4
  | _ => none

/-- The cell of an index, or none if the index is the value itself. -/
def cell? (table : SymbolTable) (unit : String) (mem : Memory) (index : Word) :
    Segment → Option Word
  | .locals => some (mem.read 1 + index)
  | .argument => some (mem.read 2 + index)
  | .this => some (mem.read 3 + index)
  | .that => some (mem.read 4 + index)
  | .pointer => some (3 + index)
  | .temp => some (5 + index)
  | .static => table.address? (staticSymbol unit index)
  | .constant => none

def word? (table : SymbolTable) (unit : String) (mem : Memory) (index : Word) (segment : Segment) :
    Option Word :=
  match segment.cell? table unit mem index with
  | none => some index
  | some t => mem.load? t

variable {table : SymbolTable} {unit : String} {mem mem' : Memory} {segment : Segment}
  {index sp t : Word}

def StaticBound (table : SymbolTable) (unit : String) (segment : Segment) (index : Word) : Prop :=
  segment = .static → ∃ t, table.address? (staticSymbol unit index) = some t ∧ t.toNat < ramSize

theorem StaticBound.staticCell? (h : StaticBound table unit .static index) :
    staticCell? table unit index = table.address? (staticSymbol unit index) := by
  obtain ⟨t, ht, hlt⟩ := h rfl
  rw [HackStack.staticCell?, ht, Option.map_some, Word.literal_and (Nat.le_of_lt_succ hlt)]

theorem StaticBound.exists_cell (h : StaticBound table unit segment index) (mem : Memory)
    (hsegment : segment ≠ .constant) : ∃ t, segment.cell? table unit mem index = some t := by
  cases segment with
  | constant => exact absurd rfl hsegment
  | static =>
    obtain ⟨t, ht, -⟩ := h rfl
    exact ⟨t, ht⟩
  | _ => exact ⟨_, rfl⟩

/-- Registers with the same words give the same cell. -/
theorem cell?_congr (h : ∀ r, segment.register? = some r → mem'.read r = mem.read r) :
    segment.cell? table unit mem' index = segment.cell? table unit mem index := by
  cases segment with
  | locals | argument | this | that => exact congrArg (fun w => some (w + index)) (h _ rfl)
  | _ => rfl

theorem of_word?_eq_some {word : Word} (h : segment.word? table unit mem index = some word) :
    (segment.cell? table unit mem index = none → word = index) ∧
      ∀ t, segment.cell? table unit mem index = some t → t.toNat < ramSize ∧ word = mem.read t := by
  unfold word? at h
  constructor
  · intro hcell
    rw [hcell] at h
    exact (Option.some.inj h).symm
  · intro t hcell
    simp only [hcell, Memory.load?] at h
    split at h
    next hlt => exact ⟨hlt, (Option.some.inj h).symm⟩
    next => cases h

theorem of_word?_eq_none (h : segment.word? table unit mem index = none) :
    ∃ t, segment.cell? table unit mem index = some t ∧ ¬ t.toNat < ramSize := by
  unfold word? at h
  split at h
  next => cases h
  next t hcell =>
    refine ⟨t, hcell, fun hlt => ?_⟩
    rw [Memory.load?_of_lt hlt] at h
    cases h

theorem pushFrom?_eq (h : StaticBound table unit segment index) :
    shared.pushFrom? mem (staticCell? table unit) segment index =
      (segment.word? table unit mem index).bind (shared.push? mem) := by
  cases segment with
  | static =>
    obtain ⟨t, ht, -⟩ := h rfl
    change ((staticCell? table unit index).bind fun cell =>
      (mem.load? cell).bind (shared.push? mem)) = _
    rw [h.staticCell?, word?, cell?, ht, Option.bind_some]
  | _ => rfl

/-- The address of a cell behind a register is set aside first. Then the stack pointer moves, and the
popped word is stored last. -/
theorem popTo?_eq (h : StaticBound table unit segment index) (hsp : mem.read 0 = sp)
    (hlow : 17 ≤ sp.toNat) (hhigh : sp.toNat ≤ ramSize)
    (ht : segment.cell? table unit mem index = some t) :
    shared.popTo? mem (staticCell? table unit) segment index =
      ((if segment.register?.isSome then mem.write 13 t else mem).write 0 (sp - 1)).store? t
        (mem.read (sp - 1)) := by
  have hpop := Memory.pop?_spec hsp (by omega) hhigh
  have hpred := Word.toNat_pred (show 1 ≤ sp.toNat by omega)
  have hindirect (base : Base) (hcell : t = mem.read base.cell + index) :
      (shared.pop? (mem.write 13 (mem.read base.cell + index))).bind
          (fun r => r.2.store? (r.2.read 13) r.1) =
        ((mem.write 13 t).write 0 (sp - 1)).store? t (mem.read (sp - 1)) := by
    have hne : (13 : Word) ≠ sp - 1 := Word.ne_of_lt (n := 14) (by decide) (by omega)
    have hpointer : (mem.write 13 t).read 0 = sp := by
      rw [Memory.read_write_ne (by decide), hsp]
    rw [← hcell, Memory.pop?_spec hpointer (by omega) hhigh, Option.bind_some,
      Memory.read_write_ne hne]
    rw [Memory.read_write_ne (by decide), Memory.read_write_self (by decide)]
  cases segment with
  | constant => cases ht
  | static =>
    change ((staticCell? table unit index).bind fun cell =>
      (shared.pop? mem).bind fun r => r.2.store? cell r.1) = _
    rw [h.staticCell?, show table.address? (staticSymbol unit index) = some t from ht, hpop]
    rfl
  | pointer | temp =>
    change ((shared.pop? mem).bind fun r => r.2.store? _ r.1) = _
    cases ht
    rw [hpop]
    rfl
  | locals => exact hindirect .lcl (Option.some.inj ht).symm
  | argument => exact hindirect .arg (Option.some.inj ht).symm
  | this => exact hindirect .this (Option.some.inj ht).symm
  | that => exact hindirect .that (Option.some.inj ht).symm

end Segment

theorem push_falls (unit : String) (segment : Segment) (index : Word) :
    ∀ i ∈ push unit segment index, i.falls := by
  cases segment <;> exact List.all_eq_true.1 rfl

theorem pop_falls (unit : String) (segment : Segment) (index : Word) :
    ∀ i ∈ pop unit segment index, i.falls := by
  cases segment <;> exact List.all_eq_true.1 rfl

namespace Machine

variable {unit : String} {segment : Segment} {index sp t : Word} {p : Program} {m : Machine}

def Pushed (mem : Memory) (sp word : Word) (mem' : Memory) : Prop :=
  ∀ a, mem'.read a = if a = 0 then sp + 1 else if a = sp then word else mem.read a

/-- A push that has a word to push and a cell for it goes through, and any other is stranded. -/
theorem AtFragment.push_cases (h : m.AtFragment p (push unit segment index))
    (hi : segment.Admits index) (hstatic : Segment.StaticBound p.symbols unit segment index)
    (hsp : m.ram.read 0 = sp) (hlow : 1 ≤ sp.toNat) :
    (∃ word u, sp.toNat < ramSize ∧ segment.word? p.symbols unit m.ram index = some word ∧
        m.Leaves (push unit segment index) u ∧ m.Behind (push unit segment index) u ∧
        Pushed m.ram sp word u.ram) ∨
      ((sp.toNat < ramSize → segment.word? p.symbols unit m.ram index = none) ∧
        m.Strands (push unit segment index)) := by
  have hfalls := push_falls unit segment index
  have hexec := exec_push p.symbols m.core unit hi
  rw [Segment.pushFrom?_eq hstatic] at hexec
  change _ = (segment.word? p.symbols unit m.ram index).bind (shared.push? m.ram) at hexec
  cases hword : segment.word? p.symbols unit m.ram index with
  | none =>
    rw [hword, Option.bind_none] at hexec
    exact .inr ⟨fun _ => rfl, h.strands_exec hfalls hexec⟩
  | some word =>
    rw [hword, Option.bind_some] at hexec
    by_cases hhigh : sp.toNat < ramSize
    · obtain ⟨mem, hmem, hpointer, htop, hothers⟩ := Memory.push?_spec word hsp hlow hhigh
      obtain ⟨u, hleaves, hbehind, rfl⟩ := h.leaves_exec hfalls (hexec.trans hmem)
      refine .inl ⟨word, u, hhigh, rfl, hleaves, hbehind, fun a => ?_⟩
      split
      next hzero => rw [hzero, hpointer]
      next hzero =>
        split
        next ha => rw [ha, htop]
        next ha => exact hothers a hzero ha
    · rw [Memory.push?_eq_none word hsp hhigh] at hexec
      exact .inr ⟨fun hlt => absurd hlt hhigh, h.strands_exec hfalls hexec⟩

/-- A pop into a cell that exists goes through, and any other is stranded. -/
theorem AtFragment.pop_cases (h : m.AtFragment p (pop unit segment index))
    (hi : segment.Admits index) (hstatic : Segment.StaticBound p.symbols unit segment index)
    (hsp : m.ram.read 0 = sp) (hlow : 17 ≤ sp.toNat) (hhigh : sp.toNat ≤ ramSize)
    (ht : segment.cell? p.symbols unit m.ram index = some t) :
    (∃ u, t.toNat < ramSize ∧ m.Leaves (pop unit segment index) u ∧
        m.Behind (pop unit segment index) u ∧
        u.ram = ((if segment.register?.isSome then m.ram.write 13 t else m.ram).write 0
          (sp - 1)).write t (m.ram.read (sp - 1))) ∨
      (¬ t.toNat < ramSize ∧ m.Strands (pop unit segment index)) := by
  have hfalls := pop_falls unit segment index
  have hexec := (exec_pop p.symbols m.core unit hi).trans
    (Segment.popTo?_eq hstatic hsp hlow hhigh ht)
  by_cases hlt : t.toNat < ramSize
  · rw [Memory.store?_of_lt _ hlt] at hexec
    obtain ⟨u, hleaves, hbehind, hram⟩ := h.leaves_exec hfalls hexec
    exact .inl ⟨u, hlt, hleaves, hbehind, hram⟩
  · rw [Memory.store?, if_neg hlt] at hexec
    exact .inr ⟨hlt, h.strands_exec hfalls hexec⟩

/-- A word that was popped into a cell can be pushed back, if that did not change where the segment or
the stack is. -/
theorem AtFragment.push_popped {mem : Memory} (h : m.AtFragment p (push unit segment index))
    (hi : segment.Admits index) (hstatic : Segment.StaticBound p.symbols unit segment index)
    (hlow : 17 ≤ sp.toNat) (hhigh : sp.toNat ≤ ramSize)
    (ht : segment.cell? p.symbols unit mem index = some t) (hlt : t.toNat < ramSize)
    (hram : m.ram = ((if segment.register?.isSome then mem.write 13 t else mem).write 0
      (sp - 1)).write t (mem.read (sp - 1)))
    (hpointer : t ≠ 0) (hregister : segment.register? ≠ some t) :
    ∃ w, m.Leaves (push unit segment index) w ∧ w.ram.read 0 = sp ∧
      w.ram.read (sp - 1) = mem.read (sp - 1) := by
  have hpred := Word.toNat_pred (show 1 ≤ sp.toNat by omega)
  have hsp : m.ram.read 0 = sp - 1 := by
    rw [hram, Memory.read_write_ne hpointer, Memory.read_write_self (by decide)]
  have hsame : segment.cell? p.symbols unit m.ram index = some t := by
    rw [← ht]
    refine Segment.cell?_congr fun r hr => ?_
    have hcell : t ≠ r := fun heq => hregister (heq ▸ hr)
    have hother : 0 ≠ r ∧ 13 ≠ r := by
      cases segment <;> cases hr <;> decide
    rw [hram, Memory.read_write_ne hcell, Memory.read_write_ne hother.1, hr]
    exact Memory.read_write_ne hother.2
  have hword : segment.word? p.symbols unit m.ram index = some (mem.read (sp - 1)) := by
    rw [Segment.word?, hsame, hram]
    exact (Memory.load?_of_lt hlt).trans (congrArg some (Memory.read_write_self hlt))
  have hne : sp - 1 ≠ 0 := (Word.ne_of_lt (n := 1) (by decide) (by omega)).symm
  rcases h.push_cases hi hstatic hsp (by omega) with ⟨word, w, -, hword', hleaves, -, hpushed⟩ | hstuck
  · cases hword.symm.trans hword'
    refine ⟨w, hleaves, ?_, ?_⟩
    · rw [hpushed, if_pos rfl]
      exact UInt16.sub_add_cancel sp 1
    · rw [hpushed, if_neg hne, if_pos rfl]
  · cases hword.symm.trans (hstuck.1 (by omega))

/-- The code of an accepted push or pop ends unless a cell that it needs does not exist, and the memory
is then the old one with the words of the push or the pop in their places. A word that was popped into
a cell is pushed back from it, unless that cell is the stack pointer or the register of the
segment. -/
theorem segment_access_iff (hsp : m.ram.read 0 = sp)
    (hstatic : ∀ t, segment = .static → p.symbols.address? (staticSymbol unit index) = some t →
      t.toNat < 32768) :
    (Command.Readable (.push segment index) → m.AtFragment p (push unit segment index) →
      1 ≤ sp.toNat →
      ((∃ u, m.Leaves (push unit segment index) u) ↔ sp.toNat < 32768 ∧
        ∀ t, segment.cell? p.symbols unit m.ram index = some t → t.toNat < 32768) ∧
      ((∃ u, m.Leaves (push unit segment index) u) ∨ m.Strands (push unit segment index)) ∧
      ∀ u, m.Leaves (push unit segment index) u → m.Behind (push unit segment index) u ∧
        ∃ word, Pushed m.ram sp word u.ram ∧ (segment = .constant → word = index) ∧
          (segment ≠ .constant → ∃ t, segment.cell? p.symbols unit m.ram index = some t ∧
            word = m.ram.read t)) ∧
    (Command.Readable (.pop segment index) → m.AtFragment p (pop unit segment index) →
      17 ≤ sp.toNat → sp.toNat ≤ 32768 →
      ∃ t, segment.cell? p.symbols unit m.ram index = some t ∧
        ((∃ u, m.Leaves (pop unit segment index) u) ↔ t.toNat < 32768) ∧
        ((∃ u, m.Leaves (pop unit segment index) u) ∨ m.Strands (pop unit segment index)) ∧
        ∀ u, m.Leaves (pop unit segment index) u → m.Behind (pop unit segment index) u ∧
          u.ram = ((if segment.register?.isSome then m.ram.write 13 t else m.ram).write 0
            (sp - 1)).write t (m.ram.read (sp - 1)) ∧
          (t ≠ 0 → segment.register? ≠ some t → ∀ v : Machine,
            v.AtFragment p (push unit segment index) → v.ram = u.ram →
            ∃ w, v.Leaves (push unit segment index) w ∧ w.ram.read 0 = sp ∧
              w.ram.read (sp - 1) = m.ram.read (sp - 1))) := by
  have hbound {fragment : List Statement} (h : m.AtFragment p fragment)
      (hmem : segment = .static → .symbol (staticSymbol unit index) ∈ fragment) :
      Segment.StaticBound p.symbols unit segment index := by
    intro hsegment
    obtain ⟨t, ht⟩ := h.symbol_bound (hmem hsegment)
    exact ⟨t, ht, hstatic t hsegment ht⟩
  constructor
  · intro hread h hlow
    have hstatic' := hbound h (by rintro rfl; exact List.mem_cons_self)
    have hcell := hstatic'.exists_cell m.ram
    rcases h.push_cases hread.wellFormed hstatic' hsp hlow with
      ⟨word, u, hhigh, hword, hleaves, hbehind, hpushed⟩ | ⟨hnone, hstrands⟩
    · obtain ⟨hindex, hread⟩ := Segment.of_word?_eq_some hword
      refine ⟨⟨fun _ => ⟨hhigh, fun t ht => (hread t ht).1⟩, fun _ => ⟨u, hleaves⟩⟩,
        .inl ⟨u, hleaves⟩, fun v hv => ?_⟩
      cases hv.unique hleaves
      refine ⟨hbehind, word, hpushed, ?_, fun hsegment => ?_⟩
      · rintro rfl
        exact hindex rfl
      · obtain ⟨t, ht⟩ := hcell hsegment
        exact ⟨t, ht, (hread t ht).2⟩
    · refine ⟨⟨fun ⟨u, hu⟩ => absurd hu hstrands.not_leaves, fun ⟨hhigh, hcells⟩ => ?_⟩,
        .inr hstrands, fun u hu => absurd hu hstrands.not_leaves⟩
      obtain ⟨t, ht, hout⟩ := Segment.of_word?_eq_none (hnone hhigh)
      exact absurd (hcells t ht) hout
  · intro hread h hlow hhigh
    obtain ⟨hsegment, hi⟩ := hread.wellFormed
    have hstatic' := hbound h (by
      rintro rfl
      exact List.mem_append_right _ List.mem_cons_self)
    obtain ⟨t, ht⟩ := hstatic'.exists_cell m.ram hsegment
    refine ⟨t, ht, ?_⟩
    rcases h.pop_cases hi hstatic' hsp hlow hhigh ht with
      ⟨u, hlt, hleaves, hbehind, hram⟩ | ⟨hout, hstrands⟩
    · refine ⟨⟨fun _ => hlt, fun _ => ⟨u, hleaves⟩⟩, .inl ⟨u, hleaves⟩, fun v hv => ?_⟩
      cases hv.unique hleaves
      refine ⟨hbehind, hram, fun hpointer hregister w hw hsame => ?_⟩
      exact hw.push_popped hi hstatic' hlow hhigh ht hlt (hsame.trans hram) hpointer hregister
    · exact ⟨⟨fun ⟨u, hu⟩ => absurd hu hstrands.not_leaves, fun hlt => absurd hlt hout⟩,
        .inr hstrands, fun u hu => absurd hu hstrands.not_leaves⟩

section Sample

def wrapping : Memory := ((Memory.zero.write 0 300).write 2 65535).write 299 7

theorem argument_readable :
    Command.Readable (.pop .argument 20) ∧ Command.Readable (.push .argument 20) := by
  have hread : Command.read "Main.vm" "pop argument 20\npush argument 20\n" =
      .ok [⟨.pop .argument 20, "Main.vm", 1⟩, ⟨.push .argument 20, "Main.vm", 2⟩] := rfl
  exact ⟨⟨_, _, _, hread, List.mem_cons_self⟩,
    ⟨_, _, _, hread, List.mem_cons_of_mem _ List.mem_cons_self⟩⟩

theorem exists_argument_program : ∃ p, ∀ m : Machine, m.status = .running → m.rom = p.words →
    (m.pc.toNat = 0 → m.AtFragment p (pop "Main" .argument 20)) ∧
      (m.pc.toNat = 12 → m.AtFragment p (push "Main" .argument 20)) := by
  have hunit : isSymbol "Main".toList := by decide
  have hindex : Segment.argument.Admits 20 := by decide
  have hwritable : ∀ i ∈ pop "Main" .argument 20 ++ push "Main" .argument 20, i.Writable :=
    List.forall_mem_append.2 ⟨pop_writable hunit hindex, push_writable hunit hindex⟩
  obtain ⟨p, hp⟩ := exists_atFragment hwritable ⟨List.nodup_nil, List.forall_mem_nil _⟩ (by decide)
  exact ⟨p, fun m hrun hrom => ⟨fun hpc => hp [] _ _ m rfl hrun hrom hpc, fun hpc =>
    hp (pop "Main" .argument 20) _ [] m (by rw [List.append_nil]) hrun hrom hpc⟩⟩

/-- The address of argument 20 wraps around to cell 19. A word is popped into that cell, and the push
behind the pop finds it there. -/
theorem segment_access_wrapping : ∃ (p : Program) (m u w : Machine), m.ram.read 2 = 65535 ∧
    m.ram.read 299 = 7 ∧ m.AtFragment p (pop "Main" .argument 20) ∧
    m.Leaves (pop "Main" .argument 20) u ∧ u.AtFragment p (push "Main" .argument 20) ∧
    u.ram = ((m.ram.write 13 19).write 0 299).write 19 7 ∧
    u.Leaves (push "Main" .argument 20) w ∧ u.Behind (push "Main" .argument 20) w ∧
    w.ram.read 0 = 300 ∧ w.ram.read 299 = 7 := by
  obtain ⟨p, hp⟩ := exists_argument_program
  obtain ⟨hpopped, hpushed⟩ := argument_readable
  have h := (hp ⟨p.words, wrapping, 0, 0, 0, .running, 0⟩ rfl rfl).1 rfl
  have hsp : wrapping.read 0 = 300 := by
    rw [wrapping, Memory.read_write_ne (by decide), Memory.read_write_ne (by decide),
      Memory.read_write_self (by decide)]
  have hregister : wrapping.read 2 = 65535 := by
    rw [wrapping, Memory.read_write_ne (by decide), Memory.read_write_self (by decide)]
  have htop : wrapping.read 299 = 7 := Memory.read_write_self (by decide)
  have hstatic : ∀ t, Segment.argument = .static →
      p.symbols.address? (staticSymbol "Main" 20) = some t → t.toNat < 32768 :=
    fun _ hsegment => by cases hsegment
  obtain ⟨t, ht, hends, -, hpop⟩ :=
    (segment_access_iff hsp hstatic).2 hpopped h (by decide) (by decide)
  have hcell : t = 19 := by
    rw [← Option.some.inj ht]
    exact congrArg (· + 20) hregister
  subst hcell
  obtain ⟨u, hu⟩ := hends.2 (by decide)
  obtain ⟨hbehind, hram, hback⟩ := hpop u hu
  have hnext := (hp u hbehind.running hbehind.rom).2 hbehind.pc
  obtain ⟨w, hw, hpointer, hword⟩ := hback (by decide) (by decide) u hnext rfl
  have hsp' : u.ram.read 0 = 299 := by
    rw [hram, Memory.read_write_ne (by decide), Memory.read_write_self (by decide)]
    rfl
  obtain ⟨-, -, hpush⟩ := (segment_access_iff hsp' hstatic).1 hpushed hnext (by decide)
  exact ⟨p, _, u, w, hregister, htop, h, hu, hnext, htop ▸ hram, hw, (hpush w hw).1, hpointer,
    hword.trans htop⟩

end Sample

end Machine

end HackStack
