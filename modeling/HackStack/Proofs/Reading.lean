import HackStack.Lowering.Program
import HackStack.Proofs.Grammar

set_option autoImplicit false

namespace HackStack

theorem bind_eq_ok {ε α β : Type} {x : Except ε α} {f : α → Except ε β} {b : β}
    (h : x >>= f = .ok b) : ∃ a, x = .ok a ∧ f a = .ok b := by
  cases x with
  | error e => cases h
  | ok a => exact ⟨a, rfl, h⟩

theorem map_eq_ok {ε α β : Type} {x : Except ε α} {f : α → β} {b : β} (h : f <$> x = .ok b) :
    ∃ a, x = .ok a ∧ f a = b := by
  cases x with
  | error e => cases h
  | ok a => exact ⟨a, rfl, Except.ok.inj h⟩

/-- The cells of a segment at a fixed address are within reach of an address instruction. -/
theorem Segment.Admits.direct_le {segment : Segment} {base index : Word}
    (hi : segment.Admits index) (hb : segment.addressing = .direct base) :
    (base + index).toNat ≤ Word.maxLiteral := by
  have hlt : base.toNat ≤ 5 ∧ index.toNat < 8 := by
    cases segment with
    | pointer =>
      cases hb
      exact ⟨by decide, Nat.lt_trans (hi.2 2 rfl) (by decide)⟩
    | temp =>
      cases hb
      exact ⟨by decide, hi.2 8 rfl⟩
    | _ => cases hb
  have hmax : Word.maxLiteral = 32767 := rfl
  rw [UInt16.toNat_add]
  omega

namespace Command

structure Reading.Sound (file : String) (r : Reading) : Prop where
  scope : ∀ f ∈ r.scope, isSymbol f.toList
  commands : ∀ c ∈ r.commands, c.command.WellFormed ∧ c.location.file = file

theorem Reading.Sound.next {file : String} {r : Reading} (h : r.Sound file)
    (line : List Char × Nat) : (r.next file line).Sound file := by
  unfold Reading.next
  dsimp only
  split
  · exact h
  next c hc =>
    have hwell := (readLine_some_iff.1 hc).wellFormed h.scope
    refine ⟨?_, ?_⟩
    · intro f hf
      cases c with
      | function name locals =>
        cases hf
        exact hwell.1
      | _ => exact h.scope f hf
    · intro d hd
      rcases Array.mem_push.1 hd with hd | rfl
      · exact h.commands d hd
      · exact ⟨hwell, rfl⟩
  · exact ⟨h.scope, h.commands⟩

theorem readSource_sound (file source : String) : (readSource file source).Sound file := by
  have hfold : ∀ (ls : List (List Char × Nat)) (r : Reading), r.Sound file →
      (ls.foldl (Reading.next file) r).Sound file := by
    intro ls
    induction ls with
    | nil => exact fun _ hr => hr
    | cons l ls ih => exact fun r hr => ih _ (hr.next l)
  refine hfold _ _ ⟨?_, ?_⟩
  · intro f hf
    cases hf
  · intro c hc
    simp at hc

/-- Every command that is read is well formed and located in the file. -/
theorem read_sound {file source : String} {commands : List Located}
    (h : read file source = .ok commands) :
    ∀ c ∈ commands, c.command.WellFormed ∧ c.location.file = file := by
  simp only [read] at h
  split at h
  · cases h
    intro c hc
    exact (readSource_sound file source).commands c (Array.mem_toList_iff.1 hc)
  · cases h

end Command

end HackStack
