import HackStack.Machine.Step

set_option autoImplicit false

namespace HackStack

namespace Word

theorem or_and (x y k : Word) : (x ||| y) &&& k = (x &&& k) ||| (y &&& k) := by
  apply UInt16.eq_of_toBitVec_eq
  simp only [UInt16.toBitVec_and, UInt16.toBitVec_or]
  ext i
  simp only [BitVec.getElem_and, BitVec.getElem_or, Bool.and_or_distrib_right]

theorem not_and_not (x y : Word) : ~~~(~~~x &&& ~~~y) = x ||| y := by
  apply UInt16.eq_of_toBitVec_eq
  simp [BitVec.not_and]

theorem and_of_and_eq {w k field value : Word} (h : w &&& field = value) (hk : field &&& k = k) :
    w &&& k = value &&& k := by
  rw [← h, UInt16.and_assoc, hk]

theorem toNat_and_literal (w : Word) : (w &&& 0x7FFF).toNat = w.toNat % 32768 := by
  rw [UInt16.toNat_and]
  exact Nat.and_two_pow_sub_one_eq_mod w.toNat 15

theorem literal_and {w : Word} (h : w.toNat ≤ maxLiteral) : w &&& 0x7FFF = w := by
  apply UInt16.toNat_inj.1
  rw [toNat_and_literal]
  exact Nat.mod_eq_of_lt (Nat.lt_succ_of_le h)

theorem address_lt (w : Word) : (w &&& 0x7FFF).toNat < 32768 := by
  rw [toNat_and_literal]
  exact Nat.mod_lt _ (by decide)

theorem and_or (w x y : Word) : w &&& (x ||| y) = w &&& x ||| w &&& y := by
  rw [UInt16.and_comm, or_and, UInt16.and_comm x, UInt16.and_comm y]

theorem and_ones (w : Word) : w &&& 0xFFFF = w := by
  apply UInt16.eq_of_toBitVec_eq
  exact BitVec.and_allOnes

theorem and_bit_cases (w : Word) {k : Word} {i : Nat} (hk : k.toBitVec = BitVec.twoPow 16 i) :
    w &&& k = 0 ∨ w &&& k = k := by
  rw [← UInt16.toBitVec_inj, ← UInt16.toBitVec_inj, UInt16.toBitVec_and, hk, BitVec.and_twoPow]
  split
  · exact .inr rfl
  · exact .inl rfl

theorem ite_bit (w : Word) {k : Word} {i : Nat} (hk : k.toBitVec = BitVec.twoPow 16 i) :
    (if w &&& k != 0 then k else 0) = w &&& k := by
  obtain h | h := and_bit_cases w hk
  · simp [h]
  · rw [h]
    split
    · rfl
    · simp_all

theorem ite_bits (w : Word) :
    (if w &&& 4 != 0 then 4 else 0) ||| (if w &&& 2 != 0 then 2 else 0) |||
      (if w &&& 1 != 0 then 1 else 0) = w &&& 7 := by
  have hfour := ite_bit w (k := 4) (i := 2) rfl
  have htwo := ite_bit w (k := 2) (i := 1) rfl
  have hone := ite_bit w (k := 1) (i := 0) rfl
  rw [hfour, htwo, hone, ← and_or, ← and_or]
  rfl

theorem shift_and_shift (w k n : Word) : (w >>> n &&& k) <<< n = w &&& k <<< n := by
  apply UInt16.eq_of_toBitVec_eq
  ext i hi
  simp only [UInt16.toBitVec_and, UInt16.toBitVec_shiftLeft, UInt16.toBitVec_shiftRight]
  by_cases h : i < n.toNat % 16
  · simp [h]
  · have hi' : n.toNat % 16 + (i - n.toNat % 16) = i := by omega
    simp [h, hi', BitVec.getLsbD_eq_getElem hi]

theorem bit_shifted (w n : Word) {k : Word} {i : Nat} (hk : k.toBitVec = BitVec.twoPow 16 i)
    (hne : k <<< n ≠ 0) : (w >>> n &&& k != 0) = (w &&& k <<< n != 0) := by
  rw [← shift_and_shift]
  obtain h | h := and_bit_cases (w >>> n) hk
  · simp [h]
  · have hk0 : k ≠ 0 := by
      rintro rfl
      simp at hne
    rw [h, bne_iff_ne.2 hk0, bne_iff_ne.2 hne]

end Word

theorem Dest.bits_ofBits (w : Word) : (ofBits w).bits = w &&& 7 := Word.ite_bits w

theorem Dest.ofBits_shifted (w : Word) :
    ofBits (w >>> 3) = ⟨w &&& 0x0020 != 0, w &&& 0x0010 != 0, w &&& 0x0008 != 0⟩ := by
  rw [ofBits, Word.bit_shifted w 3 (k := 4) (i := 2) rfl (by decide),
    Word.bit_shifted w 3 (k := 2) (i := 1) rfl (by decide),
    Word.bit_shifted w 3 (k := 1) (i := 0) rfl (by decide)]
  rfl

theorem Jump.bits_ofBits (w : Word) : (ofBits w).bits = w &&& 7 := Word.ite_bits w

namespace Jump

theorem signed_cases (w : Word) :
    (w = 0 ∧ Word.signed w = 0) ∨ (w ≠ 0 ∧ Word.isNegative w = true ∧ Word.signed w < 0) ∨
      (w ≠ 0 ∧ Word.isNegative w = false ∧ 0 < Word.signed w) := by
  have hlt : w.toNat < 65536 := w.toNat_lt
  by_cases h0 : w = 0
  · subst h0
    exact .inl ⟨rfl, rfl⟩
  · have hpos : w.toNat ≠ 0 := fun h => h0 (UInt16.toNat_inj.1 h)
    unfold Word.signed
    cases hneg : Word.isNegative w with
    | true =>
      rw [if_pos rfl]
      exact .inr (.inl ⟨h0, rfl, by omega⟩)
    | false =>
      rw [if_neg Bool.false_ne_true]
      exact .inr (.inr ⟨h0, rfl, by omega⟩)

/-- A jump tests the sign of the two's complement reading. -/
theorem holds_eq (j : Jump) (w : Word) :
    j.holds w = (j.lt && w.signed < 0 || j.eq && w.signed = 0 || j.gt && 0 < w.signed) := by
  unfold holds
  obtain ⟨rfl, h⟩ | ⟨h0, hneg, h⟩ | ⟨h0, hneg, h⟩ := signed_cases w
  · simp [h]
  · have hne : w.signed ≠ 0 := by omega
    have hle : ¬ 0 < w.signed := by omega
    simp [h0, hneg, h, hne, hle]
  · have hne : w.signed ≠ 0 := by omega
    have hle : ¬ w.signed < 0 := by omega
    simp [h0, hneg, h, hne, hle]

end Jump

namespace Comp

theorem mem_all (c : Comp) : c ∈ all := by
  cases c with
  | y o | notY o | negY o | yPlusOne o | yMinusOne o | dPlusY o | dMinusY o | yMinusD o | dAndY o
  | dOrY o => cases o <;> decide
  | _ => decide

theorem bits_of_ofBits? {w : Word} {c : Comp} (h : ofBits? w = some c) : c.bits = w := by
  have hfound : (c.bits == w) = true := List.find?_some (p := fun c : Comp => c.bits == w) h
  exact eq_of_beq hfound

def lines : Comp → Control
  | .zero => ⟨true, false, true, false, true, false⟩
  | .one => ⟨true, true, true, true, true, true⟩
  | .minusOne => ⟨true, true, true, false, true, false⟩
  | .d => ⟨false, false, true, true, false, false⟩
  | .notD => ⟨false, false, true, true, false, true⟩
  | .negD => ⟨false, false, true, true, true, true⟩
  | .dPlusOne => ⟨false, true, true, true, true, true⟩
  | .dMinusOne => ⟨false, false, true, true, true, false⟩
  | .y _ => ⟨true, true, false, false, false, false⟩
  | .notY _ => ⟨true, true, false, false, false, true⟩
  | .negY _ => ⟨true, true, false, false, true, true⟩
  | .yPlusOne _ => ⟨true, true, false, true, true, true⟩
  | .yMinusOne _ => ⟨true, true, false, false, true, false⟩
  | .dPlusY _ => ⟨false, false, false, false, true, false⟩
  | .dMinusY _ => ⟨false, true, false, false, true, true⟩
  | .yMinusD _ => ⟨false, false, false, true, true, true⟩
  | .dAndY _ => ⟨false, false, false, false, false, false⟩
  | .dOrY _ => ⟨false, true, false, true, false, true⟩

theorem ofWord_bits (c : Comp) : Control.ofWord (c.bits <<< 6) = c.lines := by
  have h : ∀ c ∈ all, Control.ofWord (c.bits <<< 6) = c.lines := by decide
  exact h c (mem_all c)

/-- The arithmetic unit computes what the computation denotes. -/
theorem output_lines (c : Comp) (d y : Word) : c.lines.output d y = c.eval d y := by
  cases c with
  | dOrY o => exact Word.not_and_not d y
  | dMinusOne | yMinusOne o =>
    simp only [lines, Control.output, Control.preset, eval, if_true, Bool.false_eq_true, if_false,
      UInt16.not_zero]
    grind
  | one | negD | dPlusOne | negY o | yPlusOne o | dMinusY o | yMinusD o =>
    simp only [lines, Control.output, Control.preset, eval, if_true, Bool.false_eq_true, if_false,
      UInt16.not_eq_neg_sub]
    grind
  | _ => simp [lines, Control.output, Control.preset, eval]

end Comp

namespace Instruction

variable (c : Compute)

theorem compute_and (k : Word) :
    (compute c).encode &&& k =
      ((0xE000 : Word) &&& k) ||| (c.comp.bits <<< 6 &&& k) ||| (c.dest.bits <<< 3 &&& k) |||
        (c.jump.bits &&& k) := by
  simp only [encode, Word.or_and]

theorem comp_and (comp : Comp) :
    comp.bits <<< 6 &&& (0x1FC0 : Word) = comp.bits <<< 6 ∧ comp.bits <<< 6 &&& (0xE000 : Word) = 0 ∧
      comp.bits <<< 6 &&& (0x0038 : Word) = 0 ∧ comp.bits <<< 6 &&& (0x0007 : Word) = 0 := by
  have h : ∀ c ∈ Comp.all, c.bits <<< 6 &&& (0x1FC0 : Word) = c.bits <<< 6 ∧ c.bits <<< 6 &&& (0xE000 : Word) = 0 ∧
      c.bits <<< 6 &&& (0x0038 : Word) = 0 ∧ c.bits <<< 6 &&& (0x0007 : Word) = 0 := by decide
  exact h comp (Comp.mem_all comp)

theorem dest_and (dest : Dest) :
    dest.bits <<< 3 &&& (0x0038 : Word) = dest.bits <<< 3 ∧ dest.bits <<< 3 &&& (0xE000 : Word) = 0 ∧
      dest.bits <<< 3 &&& (0x1FC0 : Word) = 0 ∧ dest.bits <<< 3 &&& (0x0007 : Word) = 0 := by
  obtain ⟨a, d, m⟩ := dest
  cases a <;> cases d <;> cases m <;> decide

theorem jump_and (jump : Jump) :
    jump.bits &&& (0x0007 : Word) = jump.bits ∧ jump.bits &&& (0xE000 : Word) = 0 ∧
      jump.bits &&& (0x1FC0 : Word) = 0 ∧ jump.bits &&& (0x0038 : Word) = 0 := by
  obtain ⟨lt, eq, gt⟩ := jump
  cases lt <;> cases eq <;> cases gt <;> decide

theorem compute_tag : (compute c).encode &&& (0xE000 : Word) = 0xE000 := by
  rw [compute_and, (comp_and c.comp).2.1, (dest_and c.dest).2.1, (jump_and c.jump).2.1]
  rfl

theorem compute_comp : (compute c).encode &&& (0x1FC0 : Word) = c.comp.bits <<< 6 := by
  rw [compute_and, (comp_and c.comp).1, (dest_and c.dest).2.2.1, (jump_and c.jump).2.2.1]
  simp only [show (0xE000 &&& 0x1FC0 : Word) = 0 from rfl, UInt16.zero_or, UInt16.or_zero]

theorem compute_dest : (compute c).encode &&& (0x0038 : Word) = c.dest.bits <<< 3 := by
  rw [compute_and, (comp_and c.comp).2.2.1, (dest_and c.dest).1, (jump_and c.jump).2.2.2]
  simp only [show (0xE000 &&& 0x0038 : Word) = 0 from rfl, UInt16.zero_or, UInt16.or_zero]

theorem compute_jump : (compute c).encode &&& (0x0007 : Word) = c.jump.bits := by
  rw [compute_and, (comp_and c.comp).2.2.2, (dest_and c.dest).2.2.2, (jump_and c.jump).1]
  simp only [show (0xE000 &&& 0x0007 : Word) = 0 from rfl, UInt16.zero_or]

/-- The first bit tells a computation from an address. -/
theorem compute_first : (compute c).encode &&& (0x8000 : Word) = 0x8000 :=
  Word.and_of_and_eq (compute_tag c) rfl

theorem address_first (v : Word) : (address v).encode &&& (0x8000 : Word) = 0 := by
  simp only [encode, UInt16.and_assoc, show (0x7FFF &&& 0x8000 : Word) = 0 from rfl,
    UInt16.and_zero]

theorem compute_legal : (compute c).encode &&& (0x6000 : Word) = 0x6000 :=
  Word.and_of_and_eq (compute_tag c) rfl

theorem compute_reads : ((compute c).encode &&& (0x1000 : Word) != 0) = c.comp.readsMemory := by
  have h : ∀ c ∈ Comp.all, (c.bits <<< 6 &&& (0x1000 : Word) != 0) = c.readsMemory := by decide
  rw [Word.and_of_and_eq (compute_comp c) (by decide)]
  exact h c.comp (Comp.mem_all c.comp)

theorem compute_writes : ((compute c).encode &&& (0x0008 : Word) != 0) = c.dest.m := by
  have h : ∀ s : Dest, (s.bits <<< 3 &&& (0x0008 : Word) != 0) = s.m := by
    rintro ⟨a, d, m⟩
    cases a <;> cases d <;> cases m <;> decide
  rw [Word.and_of_and_eq (compute_dest c) (by decide), h]

theorem control_compute : Control.ofWord (compute c).encode = c.comp.lines := by
  rw [← Comp.ofWord_bits]
  simp only [Control.ofWord]
  congr 2 <;> exact Word.and_of_and_eq (compute_comp c) rfl

theorem dest_compute : Dest.ofBits ((compute c).encode >>> 3) = c.dest := by
  have h : (compute c).encode >>> 3 &&& (7 : Word) = c.dest.bits <<< 3 >>> 3 := by
    rw [← compute_dest, UInt16.shiftRight_and]
    rfl
  have hbits : ∀ s : Dest, s.bits <<< 3 >>> 3 = s.bits := by
    rintro ⟨a, d, m⟩
    cases a <;> cases d <;> cases m <;> decide
  rw [hbits] at h
  conv => rhs; rw [← Dest.ofBits_bits c.dest]
  simp only [Dest.ofBits]
  congr 2 <;> exact Word.and_of_and_eq h rfl

theorem jump_compute : Jump.ofBits (compute c).encode = c.jump := by
  conv => rhs; rw [← Jump.ofBits_bits c.jump]
  simp only [Jump.ofBits]
  congr 2 <;> exact Word.and_of_and_eq (compute_jump c) rfl

end Instruction

end HackStack
