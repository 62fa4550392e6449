import HackStack.Tool.Run

set_option autoImplicit false

/-! # The tool in place

The tool works on its surroundings: it looks at files, writes to a disk and shows texts one after the
other, and what it has done before it fails stays done. A job that only looks and shows leaves the files
alone. So does a job that fails, if all that comes before its write does no more than that, its write
stores everything or nothing, and nothing after the write can fail. -/

namespace HackStack.Tool

open Files

/-- A disk answers a write with the tree after it, and with an error if the write failed. -/
structure Disk where
  write : Tree → Path → String → Option FileError × Tree

namespace Disk

def Atomic (disk : Disk) : Prop :=
  ∀ t path text, (∃ cause, disk.write t path text = (some cause, t)) ∨
    ∃ u, disk.write t path text = (none, u) ∧ t.write path text = .ok u

/-- The disk on which a write fails only if the tree has no place for it. -/
def plain : Disk where
  write t path text :=
    match t.write path text with
    | .error cause => (some cause, t)
    | .ok u => (none, u)

theorem atomic_plain : plain.Atomic := by
  intro t path text
  unfold plain
  dsimp only
  cases t.write path text with
  | error cause => exact .inl ⟨cause, rfl⟩
  | ok u => exact .inr ⟨u, rfl, rfl⟩

end Disk

structure World where
  tree : Tree
  stdout : String := ""
  stderr : List String := []

abbrev Job := EStateM Failure World

namespace Job

variable {α β : Type}

def look (f : Tree → Except Failure α) : Job α := fun w =>
  match f w.tree with
  | .ok a => .ok a w
  | .error failure => .error failure w

def warn (messages : List Diagnostic) : Job Unit := fun w =>
  .ok () { w with stderr := w.stderr ++ messages.map (·.text) }

def say (text : String) : Job Unit := fun w => .ok () { w with stdout := w.stdout ++ text }

def store (disk : Disk) (path : Path) (text : String) (failure : FileError → Failure) : Job Unit :=
  fun w =>
    match disk.write w.tree path text with
    | (none, t) => .ok () { w with tree := t }
    | (some cause, t) => .error (failure cause) { w with tree := t }

def ofRequest (disk : Disk) : Request → Job Unit
  | .translate args output => do
    let (_, lowered) ← look args.lower
    warn lowered.warnings
    let path ← look fun t => .ok (output.getD (defaultOutput t args.input))
    store disk path lowered.text (.write path)
    say ("Assembly written to: " ++ path.text ++ "\n")
  | .assemble input output => do
    let program ← look fun t => readText t input >>= assembleText
    let path := output.getD (input.withExtension "hack")
    store disk path program.binary (.write path)
    say (Decimal.text program.words.size ++ " words written to: " ++ path.text ++ "\n")
  | .run args budget => do
    let (options, lowered) ← look args.assembly
    warn lowered.warnings
    let machine ← look fun _ => execute lowered.text budget
    say ("SP = " ++ Decimal.text (machine.peek Machine.stackPointer).toNat ++ "\nstack = " ++
      signedList (machine.stack options.stackBase) ++ "\n")
  | .initConfig path => store disk path (Options.text {}) .save
  | .version => say "vmt 0.1.0\n"
  | .help => say helpText

end Job

def Outcome.ofJob (t : Tree) (job : Job Unit) : Outcome :=
  match job { tree := t } with
  | .ok _ w => { exitCode := 0, stdout := w.stdout, stderr := w.stderr, tree := w.tree }
  | .error failure w =>
    { exitCode := 1
      stdout := w.stdout
      stderr := w.stderr ++ failure.notes ++ ["Error: " ++ failure.message]
      tree := w.tree }

def attend (disk : Disk) (t : Tree) (args : List String) : Outcome :=
  match request? args with
  | none => .usage t
  | some request => .ofJob t (.ofRequest disk request)

namespace Job

variable {α β : Type}

theorem bind_eq (x : Job α) (f : α → Job β) (w : World) :
    (x >>= f) w = match x w with
      | .ok a w => f a w
      | .error failure w => .error failure w := by
  change EStateM.bind x f w = _
  unfold EStateM.bind
  cases x w <;> rfl

/-- On the plain disk, the tool in place has the outcome of the request. -/
theorem outcome_plain (t : Tree) (request : Request) :
    Outcome.ofJob t (ofRequest .plain request) = perform t request := by
  cases request with
  | translate args output =>
    simp only [Outcome.ofJob, ofRequest, bind_eq, look, perform, translate]
    cases args.lower t with
    | error failure => rfl
    | ok r =>
      simp only [warn, store, Disk.plain, writeOutput]
      cases t.write (output.getD (defaultOutput t args.input)) r.2.text with
      | error cause => rfl
      | ok u => simp only [say, Outcome.done, String.empty_append, List.nil_append]
  | assemble input output =>
    simp only [Outcome.ofJob, ofRequest, bind_eq, look, perform, assemble]
    cases readText t input >>= assembleText with
    | error failure => rfl
    | ok program =>
      simp only [store, Disk.plain, writeOutput]
      cases t.write (output.getD (input.withExtension "hack")) program.binary with
      | error cause => rfl
      | ok u => simp only [say, Outcome.done, String.empty_append, List.map_nil]
  | run args budget =>
    simp only [Outcome.ofJob, ofRequest, bind_eq, look, perform, run]
    cases args.assembly t with
    | error failure => rfl
    | ok r =>
      simp only [warn]
      cases execute r.2.text budget with
      | error failure => rfl
      | ok machine => simp only [say, Outcome.done, String.empty_append, List.nil_append]
  | initConfig path =>
    simp only [Outcome.ofJob, ofRequest, store, Disk.plain, perform, initConfig, saveOptions]
    cases t.write path (Options.text {}) with
    | error cause => rfl
    | ok u => rfl
  | version => rfl
  | help => rfl

/-- A job that leaves the files alone if it fails. -/
def Careful (x : Job α) : Prop :=
  ∀ w failure u, x w = .error failure u → u.tree = w.tree

def Quiet (x : Job α) : Prop := (∀ w a u, x w = .ok a u → u.tree = w.tree) ∧ Careful x

theorem bind_eq_error {x : Job α} {f : α → Job β} {w v : World} {failure : Failure}
    (h : (x >>= f) w = .error failure v) :
    x w = .error failure v ∨ ∃ a u, x w = .ok a u ∧ f a u = .error failure v := by
  rw [bind_eq] at h
  cases hx : x w with
  | ok a u =>
    rw [hx] at h
    exact .inr ⟨a, u, rfl, h⟩
  | error failure' u =>
    rw [hx] at h
    cases h
    exact .inl rfl

theorem quiet_look (f : Tree → Except Failure α) : Quiet (look f) := by
  constructor
  · intro w a u h
    unfold look at h
    split at h <;> cases h
    rfl
  · intro w failure u h
    unfold look at h
    split at h <;> cases h
    rfl

theorem quiet_warn (messages : List Diagnostic) : Quiet (warn messages) := by
  constructor
  · intro w a u h
    cases h
    rfl
  · intro w failure u h
    cases h

/-- Nothing has happened to the files when the second of two jobs starts. -/
theorem Careful.after {x : Job α} {f : α → Job β} (hx : Quiet x) (hf : ∀ a, Careful (f a)) :
    Careful (x >>= f) := by
  intro w failure v h
  rcases bind_eq_error h with h | ⟨a, u, hu, h⟩
  · exact hx.2 w failure v h
  · rw [hf a u failure v h, hx.1 w a u hu]

/-- The second of two jobs cannot fail. -/
theorem Careful.before {x : Job α} {f : α → Job β} (hx : Careful x)
    (hf : ∀ a u, ∃ b v, f a u = .ok b v) : Careful (x >>= f) := by
  intro w failure v h
  rcases bind_eq_error h with h | ⟨a, u, -, h⟩
  · exact hx w failure v h
  · obtain ⟨b, v', hok⟩ := hf a u
    cases hok.symm.trans h

theorem careful_say (text : String) : Careful (say text) := by
  intro w failure u h
  cases h

section Writing

variable {disk : Disk} (hdisk : disk.Atomic)
include hdisk

theorem careful_store (path : Path) (text : String) (failure : FileError → Failure) :
    Careful (store disk path text failure) := by
  intro w failure' v h
  unfold store at h
  rcases hdisk w.tree path text with ⟨cause, hwrite⟩ | ⟨u, hwrite, -⟩
  · rw [hwrite] at h
    cases h
    rfl
  · rw [hwrite] at h
    cases h

theorem careful_ofRequest (request : Request) : Careful (ofRequest disk request) := by
  have hsay (text : String) (u : World) : ∃ b v, say text u = .ok b v := ⟨_, _, rfl⟩
  cases request with
  | translate args output =>
    refine .after (quiet_look _) fun r => .after (quiet_warn _) fun _ => ?_
    refine .after (quiet_look _) fun path => ?_
    exact .before (careful_store hdisk path _ _) fun _ => hsay _
  | assemble input output =>
    refine .after (quiet_look _) fun program => ?_
    exact .before (careful_store hdisk _ _ _) fun _ => hsay _
  | run args budget =>
    refine .after (quiet_look _) fun r => .after (quiet_warn _) fun _ => ?_
    exact .after (quiet_look _) fun machine => careful_say _
  | initConfig path => exact careful_store hdisk path _ _
  | version => exact careful_say _
  | help => exact careful_say _

end Writing

def Succeeds (x : Job α) (w : World) (u : Tree) : Prop := ∃ a v, x w = .ok a v ∧ v.tree = u

section Success

variable {w : World} {u : Tree}

theorem succeeds_look_bind {f : Tree → Except Failure α} {g : α → Job β} :
    Succeeds (look f >>= g) w u ↔ ∃ a, f w.tree = .ok a ∧ Succeeds (g a) w u := by
  unfold Succeeds
  rw [bind_eq, look]
  cases f w.tree with
  | error failure => simp
  | ok a => simp

theorem succeeds_warn_bind {messages : List Diagnostic} {g : Job β} :
    Succeeds (warn messages >>= fun _ => g) w u ↔
      Succeeds g { w with stderr := w.stderr ++ messages.map (·.text) } u := Iff.rfl

theorem succeeds_say {text : String} : Succeeds (say text) w u ↔ w.tree = u := by
  simp [Succeeds, say]

theorem succeeds_store {disk : Disk} {path : Path} {text : String} {failure : FileError → Failure} :
    Succeeds (store disk path text failure) w u ↔ disk.write w.tree path text = (none, u) := by
  unfold Succeeds
  rw [store]
  cases disk.write w.tree path text with
  | mk cause v => cases cause <;> simp

theorem succeeds_bind_say {x : Job α} {line : String} :
    Succeeds (x >>= fun _ => say line) w u ↔ Succeeds x w u := by
  unfold Succeeds
  rw [bind_eq]
  cases x w with
  | error failure v => simp
  | ok a v =>
    constructor
    · rintro ⟨b, v', hv, hu⟩
      cases hv
      exact ⟨a, v, rfl, hu⟩
    · rintro ⟨b, v', hv, hu⟩
      cases hv
      exact ⟨(), _, rfl, hu⟩

end Success

end Job

theorem attend_plain (t : Tree) (args : List String) : attend .plain t args = invoke t args := by
  unfold attend invoke
  cases request? args with
  | none => rfl
  | some request => exact Job.outcome_plain t request

end HackStack.Tool
