import HackStack.Proofs.Fragments

set_option autoImplicit false

namespace HackStack

open Lowering Access

/-- Whenever the first computation gives a result, the second gives a related one. -/
def Carries {α β : Type} (R : α → β → Prop) (x : Option α) (y : Option β) : Prop :=
  ∀ a, x = some a → ∃ b, y = some b ∧ R a b

namespace Carries

variable {α β γ δ : Type} {R : α → β → Prop} {S : γ → δ → Prop} {x : Option α} {y : Option β}

theorem of_some {a : α} {b : β} (h : R a b) : Carries R (some a) (some b) := by
  rintro _ ⟨⟩
  exact ⟨b, rfl, h⟩

theorem bind {k : α → Option γ} {l : β → Option δ} (h : Carries R x y)
    (next : ∀ a b, x = some a → R a b → Carries S (k a) (l b)) :
    Carries S (x.bind k) (y.bind l) := by
  intro c hc
  obtain ⟨a, ha, hka⟩ := Option.bind_eq_some_iff.1 hc
  obtain ⟨b, rfl, hab⟩ := h a ha
  exact next a b ha hab c hka

theorem map {k : α → γ} {l : β → δ} (h : Carries R x y) (next : ∀ a b, R a b → S (k a) (l b)) :
    Carries S (x.map k) (y.map l) := by
  rw [Option.map_eq_bind, Option.map_eq_bind]
  exact h.bind fun a b _ hab => of_some (next a b hab)

theorem mono {S : α → β → Prop} (h : Carries R x y) (himp : ∀ a b, R a b → S a b) :
    Carries S x y := by
  intro a ha
  obtain ⟨b, hb, hab⟩ := h a ha
  exact ⟨b, hb, himp a b hab⟩

theorem refl (x : Option α) : Carries Eq x x := fun a ha => ⟨a, ha, rfl⟩

end Carries

namespace Memory

/-- The second memory has the words of the first in all cells but the two for words that are set aside,
and these hold `frame` and `address`. -/
structure Shadows (frame address : Word) (mem mem' : Memory) : Prop where
  read : ∀ a, isScratch a = false → mem'.read a = mem.read a
  frame : mem'.read 13 = frame
  address : mem'.read 14 = address

def Agree (mem mem' : Memory) : Prop := ∀ a, isScratch a = false → mem'.read a = mem.read a

theorem Agree.shadows {mem mem' : Memory} (h : Agree mem mem') :
    Shadows (mem'.read 13) (mem'.read 14) mem mem' := ⟨h, rfl, rfl⟩

theorem Agree.refl (mem : Memory) : Agree mem mem := fun _ _ => rfl

namespace Shadows

variable {f g : Word} {mem mem' : Memory} (h : Shadows f g mem mem')
include h

theorem agree : Agree mem mem' := h.read

theorem write {a : Word} (ha : isScratch a = false) (value : Word) :
    Shadows f g (mem.write a value) (mem'.write a value) := by
  have hne : a ≠ 13 ∧ a ≠ 14 := by simpa [isScratch] using ha
  refine ⟨fun b hb => ?_, ?_, ?_⟩
  · rw [read_write, read_write, h.read b hb]
  · rw [read_write_ne hne.1, h.frame]
  · rw [read_write_ne hne.2, h.address]

theorem write_base (base : Base) (value : Word) :
    Shadows f g (mem.write base.cell value) (mem'.write base.cell value) :=
  h.write (by cases base <;> rfl) value

theorem read_base (base : Base) : mem'.read base.cell = mem.read base.cell :=
  h.read _ (by cases base <;> rfl)

theorem read_pointer : mem'.read 0 = mem.read 0 := h.read 0 rfl

theorem hold_frame (word : Word) : Shadows word g mem (mem'.write 13 word) := by
  refine ⟨fun b hb => ?_, read_write_self (by decide), ?_⟩
  · have hne : 13 ≠ b := by rintro rfl; cases hb
    rw [read_write_ne hne, h.read b hb]
  · rw [read_write_ne (by decide), h.address]

theorem hold_address (word : Word) : Shadows f word mem (mem'.write 14 word) := by
  refine ⟨fun b hb => ?_, ?_, read_write_self (by decide)⟩
  · have hne : 14 ≠ b := by rintro rfl; cases hb
    rw [read_write_ne hne, h.read b hb]
  · rw [read_write_ne (by decide), h.frame]

end Shadows

end Memory

namespace Access

open Memory

theorem not_isScratch_of_load? {mem : Memory} {a value : Word} (h : apart.load? mem a = some value) :
    isScratch a = false := by
  simp only [apart] at h
  split at h
  next => cases h
  next hscratch => exact Bool.eq_false_iff.2 hscratch

section Shadows

variable {f g : Word} {mem mem' : Memory} (h : Shadows f g mem mem')
include h

theorem carries_load (a : Word) : Carries Eq (apart.load? mem a) (shared.load? mem' a) := by
  intro value hload
  have ha := not_isScratch_of_load? hload
  simp only [apart, ha, Bool.false_eq_true, if_false, Memory.load?] at hload
  exact ⟨value, by rw [shared_load?, Memory.load?, h.read a ha]; exact hload, rfl⟩

theorem carries_store (a value : Word) :
    Carries (Shadows f g) (apart.store? mem a value) (shared.store? mem' a value) := by
  intro stored hstore
  simp only [apart] at hstore
  split at hstore
  next => cases hstore
  next hscratch =>
    unfold Memory.store? at hstore
    split at hstore
    next hlt =>
      cases hstore
      exact ⟨_, store?_of_lt value hlt, h.write (Bool.eq_false_iff.2 hscratch) value⟩
    next => cases hstore

theorem carries_push (value : Word) :
    Carries (Shadows f g) (apart.push? mem value) (shared.push? mem' value) := by
  unfold push?
  rw [h.read_pointer]
  refine (carries_store h _ value).map fun a b hab => ?_
  rw [hab.read_pointer]
  exact hab.write rfl _

def Popped (f g : Word) (a b : Word × Memory) : Prop := a.1 = b.1 ∧ Shadows f g a.2 b.2

theorem carries_pop : Carries (Popped f g) (apart.pop? mem) (shared.pop? mem') := by
  unfold pop?
  rw [h.read_pointer]
  have hwrite := h.write (a := 0) rfl (mem.read 0 - 1)
  exact (carries_load hwrite _).map fun a b hab => ⟨hab, hwrite⟩

theorem carries_zeros (n : Nat) :
    Carries (Shadows f g) (apart.zeros? n mem) (shared.zeros? n mem') := by
  induction n generalizing mem mem' with
  | zero => exact .of_some h
  | succ n ih => exact (carries_push h 0).bind fun a b _ hab => ih hab

theorem carries_saves (bases : List Base) :
    Carries (Shadows f g) (bases.foldlM apart.save? mem) (bases.foldlM shared.save? mem') := by
  induction bases generalizing mem mem' with
  | nil => exact .of_some h
  | cons base bases ih =>
    refine Carries.bind (x := apart.save? mem base) ?_ fun a b _ hab => ih hab
    unfold save?
    rw [h.read_base]
    exact carries_push h _

theorem carries_enter (returnAddress args : Word) :
    Carries (Shadows f g) (apart.enter? mem returnAddress args)
      (shared.enter? mem' returnAddress args) := by
  refine (carries_push h returnAddress).bind fun a b _ hab => ?_
  refine (carries_saves hab savedRegisters).bind fun a b _ hab => .of_some ?_
  have harg := hab.write_base .arg (a.read 0 - 5 - args)
  rw [hab.read_pointer, harg.read_pointer]
  exact harg.write_base .lcl _

/-- The end of the frame stays set aside while registers are restored. -/
theorem carries_restores (places : List (Base × Word)) :
    Carries (Shadows f g) (places.foldlM (apart.restore? f) mem)
      (places.foldlM (shared.restore? f) mem') := by
  induction places generalizing mem mem' with
  | nil => exact .of_some h
  | cons place places ih =>
    refine Carries.bind (x := apart.restore? f mem place) ?_ fun a b _ hab => ih hab
    unfold restore?
    rw [shared_held, h.frame]
    refine (carries_load h _).map fun a b hab => ?_
    rw [hab]
    exact h.write_base place.1 b

end Shadows

section Agree

variable {mem mem' : Memory} (h : Agree mem mem')
include h

theorem carries_pushFrom (static? : Word → Option Word) (segment : Segment) (index : Word) :
    Carries Agree (apart.pushFrom? mem static? segment index)
      (shared.pushFrom? mem' static? segment index) := by
  have hpush (value : Word) : Carries Agree (apart.push? mem value) (shared.push? mem' value) :=
    (carries_push h.shadows value).mono fun _ _ => Shadows.agree
  have hload (a : Word) : Carries Agree ((apart.load? mem a).bind (apart.push? mem))
      ((shared.load? mem' a).bind (shared.push? mem')) :=
    (carries_load h.shadows a).bind fun v w _ hvw => hvw ▸ hpush v
  unfold pushFrom?
  cases segment.addressing with
  | immediate => exact hpush index
  | static => exact (Carries.refl (static? index)).bind fun a b _ hab => hab ▸ hload a
  | indirect base =>
    simp only [h.shadows.read_base]
    exact hload (mem.read base.cell + index)
  | direct base => exact hload (base + index)

theorem carries_popTo (static? : Word → Option Word) (segment : Segment) (index : Word) :
    Carries Agree (apart.popTo? mem static? segment index)
      (shared.popTo? mem' static? segment index) := by
  have hstore (cell : Word) : Carries Agree
      ((apart.pop? mem).bind fun r => apart.store? r.2 cell r.1)
      ((shared.pop? mem').bind fun r => shared.store? r.2 cell r.1) := by
    refine (carries_pop h.shadows).bind fun a b _ hab => ?_
    rw [hab.1]
    exact (carries_store hab.2 cell b.1).mono fun _ _ => Shadows.agree
  unfold popTo?
  cases segment.addressing with
  | immediate =>
    refine .of_some ?_
    rw [h.shadows.read_pointer]
    exact (h.shadows.write rfl _).agree
  | static => exact (Carries.refl (static? index)).bind fun a b _ hab => hab ▸ hstore a
  | indirect base =>
    simp only [h.shadows.read_base]
    refine (carries_pop (h.shadows.hold_frame (mem.read base.cell + index))).bind
      fun a b _ hab => ?_
    -- The pop has not touched cell 13, so that it still holds the address.
    rw [shared_held, hab.2.frame, hab.1]
    exact (carries_store hab.2 _ b.1).mono fun _ _ => Shadows.agree
  | direct base => exact hstore (base + index)

theorem carries_operate (op : Operation) :
    Carries Agree (apart.operate? mem op) (shared.operate? mem' op) := by
  -- A cell that could be loaded is none of the scratch cells, so that it can be written too.
  have hmodify {f g : Word} {a b : Memory} (hab : Shadows f g a b) (k : Word → Word) :
      Carries Agree ((apart.load? a (a.read 0 - 1)).bind fun v => some (a.write (a.read 0 - 1) (k v)))
        ((shared.load? b (b.read 0 - 1)).bind fun v => some (b.write (b.read 0 - 1) (k v))) := by
    rw [hab.read_pointer]
    refine (carries_load hab _).bind fun v w hv hvw => .of_some ?_
    rw [hvw]
    exact (hab.write (not_isScratch_of_load? hv) _).agree
  unfold operate?
  split
  next => exact hmodify h.shadows (op.value 0)
  next =>
    refine (carries_pop h.shadows).bind ?_
    rintro ⟨right, a⟩ ⟨right', b⟩ - ⟨hright, hab⟩
    cases hright
    exact hmodify hab fun left => op.value left right

theorem carries_leave :
    Carries (fun a b => a.1 = b.1 ∧ Agree a.2 b.2) (apart.leave? mem) (shared.leave? mem') := by
  have hframe := h.shadows.hold_frame (mem.read Base.lcl.cell)
  unfold leave?
  simp only [h.shadows.read_base]
  refine (carries_load hframe _).bind fun address address' _ haddress => ?_
  subst haddress
  refine (carries_pop (hframe.hold_address address)).bind fun a b _ hab => ?_
  rw [hab.1, hab.2.read_base]
  refine (carries_store hab.2 _ b.1).bind fun c d _ hcd => ?_
  rw [hcd.read_base]
  refine (carries_restores (hcd.write rfl _) restoreOrder).bind fun c d _ hcd => ?_
  exact .of_some ⟨hcd.address.symm, hcd.agree⟩

end Agree

end Access

namespace StackMachine

open Memory

def State.Agree (r r' : State) : Prop := r.position = r'.position ∧ r.ram.Agree r'.ram

namespace Code

variable {code : Code}

theorem carries_perform (position : Nat) (s : Site) {mem mem' : Memory} (h : mem.Agree mem') :
    Carries State.Agree (code.perform? apart position s mem)
      (code.perform? shared position s mem') := by
  have hnext {x y : Option Memory} (hxy : Carries Memory.Agree x y) :
      Carries State.Agree (x.map fun ram => State.mk (position + 1) ram)
        (y.map fun ram => State.mk (position + 1) ram) := hxy.map fun _ _ hab => ⟨rfl, hab⟩
  have hjump (target : Option Nat) {mem mem' : Memory} (hmem : mem.Agree mem') :
      Carries State.Agree (target.map fun j => State.mk j mem) (target.map fun j => State.mk j mem') :=
    (Carries.refl target).map fun _ _ hab => ⟨hab, hmem⟩
  unfold perform?
  cases s.command with
  | push segment index => exact hnext (carries_pushFrom h _ segment index)
  | pop segment index => exact hnext (carries_popTo h _ segment index)
  | operate op => exact hnext (carries_operate h op)
  | label name => exact hnext (.of_some h)
  | goto name => exact hjump (code.target? name) h
  | ifGoto name =>
    refine (carries_pop h.shadows).bind ?_
    rintro ⟨value, a⟩ ⟨value', b⟩ - ⟨hvalue, hab⟩
    cases hvalue
    by_cases hzero : value = 0
    · simp only [hzero, if_true]
      exact hnext (.of_some hab.agree)
    · simp only [hzero, if_false]
      exact hjump (code.target? name) hab.agree
  | function name locals =>
    exact hnext ((carries_zeros h.shadows locals.toNat).mono fun _ _ => Shadows.agree)
  | call name args =>
    refine (Carries.refl _).bind fun address address' _ haddress => ?_
    cases haddress
    exact (carries_enter h.shadows address args).bind fun a b _ hab =>
      hjump (code.target? name) hab.agree
  | ret =>
    refine (carries_leave h).bind ?_
    rintro ⟨address, a⟩ ⟨address', b⟩ - ⟨haddress, hab⟩
    cases haddress
    exact hjump (code.resume? address) hab

theorem carries_step {r r' : State} (h : r.Agree r') :
    Carries State.Agree (code.step? apart r) (code.step? shared r') := by
  unfold step?
  rw [← h.1]
  refine (Carries.refl code.sites[r.position]?).bind fun s t _ hst => ?_
  cases hst
  exact carries_perform r.position s h.2

theorem carries_run {r r' : State} (h : r.Agree r') (n : Nat) :
    Carries State.Agree (code.run? apart n r) (code.run? shared n r') := by
  induction n generalizing r r' with
  | zero => exact .of_some h
  | succ n ih => exact (carries_step h).bind fun a b _ hab => ih hab

theorem carries_start (ram : Memory) :
    Carries State.Agree (code.start? apart ram) (code.start? shared ram) := by
  unfold start?
  split
  next =>
    refine (Carries.refl _).bind fun address address' _ haddress => ?_
    cases haddress
    exact (carries_enter (Agree.refl _).shadows address 0).bind fun a b _ hab =>
      (Carries.refl (code.target? code.options.entryPoint)).map fun _ _ hj => ⟨hj, hab.agree⟩
  next => exact .of_some ⟨rfl, .refl ram⟩

end Code

end StackMachine

end HackStack
