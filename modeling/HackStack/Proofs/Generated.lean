import HackStack.Proofs.Rendering

set_option autoImplicit false

namespace HackStack

open Assembly Text

def Located.FromReader (c : Located) : Prop :=
  '\n' ∉ c.location.file.toList ∧ ∃ source commands,
    Command.read c.location.file source = .ok commands ∧ c ∈ commands

/-- A unit under a symbol for its name that was read from a file. -/
def SourceUnit.Accepted (u : SourceUnit) : Prop :=
  isSymbol u.name.toList ∧ ∃ file source, SourceUnit.read u.name file source = .ok u

/-- A unit under a symbol for its name that was read from a file with a name on one line. -/
def SourceUnit.Readable (u : SourceUnit) : Prop :=
  isSymbol u.name.toList ∧
    ∃ file source, '\n' ∉ file.toList ∧ SourceUnit.read u.name file source = .ok u

theorem SourceUnit.Readable.accepted {u : SourceUnit} (h : u.Readable) : u.Accepted := by
  obtain ⟨hname, file, source, -, hread⟩ := h
  exact ⟨hname, file, source, hread⟩

theorem SourceUnit.commands_of_read {name file source : String} {u : SourceUnit}
    (h : SourceUnit.read name file source = .ok u) : Command.read file source = .ok u.commands := by
  obtain ⟨commands, hcommands, rfl⟩ := map_eq_ok h
  exact hcommands

theorem SourceUnit.Accepted.wellFormed {u : SourceUnit} (h : u.Accepted) :
    ∀ c ∈ u.commands, c.command.WellFormed := by
  obtain ⟨-, file, source, hread⟩ := h
  exact fun c hc => (Command.read_sound (commands_of_read hread) c hc).1

theorem SourceUnit.Readable.fromReader {u : SourceUnit} (h : u.Readable) :
    ∀ c ∈ u.commands, c.FromReader := by
  obtain ⟨-, file, source, hfile, hread⟩ := h
  have hcommands := commands_of_read hread
  intro c hc
  obtain rfl := (Command.read_sound hcommands c hc).2
  exact ⟨hfile, source, u.commands, hcommands, hc⟩

theorem no_lineFeed_append {s t : String} (hs : '\n' ∉ s.toList) (ht : '\n' ∉ t.toList) :
    '\n' ∉ (s ++ t).toList := by
  rw [String.toList_append, List.mem_append, not_or]
  exact ⟨hs, ht⟩

theorem no_lineFeed_symbol {name : String} (h : isSymbol name.toList) : '\n' ∉ name.toList :=
  not_mem_plain (isPlain_symbol h)

theorem no_lineFeed_numeral (n : Nat) : '\n' ∉ (Decimal.text n).toList := by
  rw [Decimal.text, String.toList_ofList]
  exact not_mem_plain (isPlain_digits n)

theorem Command.text_line {c : Command} (h : c.WellFormed) : '\n' ∉ c.text.toList := by
  have hkeyword : '\n' ∉ c.keyword.toList := by
    cases c with
    | operate op => cases op <;> decide
    | _ => simp [keyword]
  have hoperands : '\n' ∉ c.operandText.toList := by
    cases c with
    | push segment index | pop segment index =>
      have hsegment : '\n' ∉ segment.text.toList := by cases segment <;> decide
      exact no_lineFeed_append (no_lineFeed_append (no_lineFeed_append (by decide) hsegment)
        (by decide)) (no_lineFeed_numeral _)
    | label name | goto name | ifGoto name =>
      exact no_lineFeed_append (by decide) (no_lineFeed_symbol h)
    | function name count | call name count =>
      exact no_lineFeed_append (no_lineFeed_append (no_lineFeed_append (by decide)
        (no_lineFeed_symbol h.1)) (by decide)) (no_lineFeed_numeral _)
    | operate op => simp [operandText]
    | ret => simp [operandText]
  exact no_lineFeed_append hkeyword hoperands

theorem Located.text_line {c : Located} (h : c.command.WellFormed)
    (hfile : '\n' ∉ c.location.file.toList) : '\n' ∉ c.text.toList := by
  have hlocation : '\n' ∉ c.location.text.toList :=
    no_lineFeed_append (no_lineFeed_append hfile (by decide)) (no_lineFeed_numeral _)
  exact no_lineFeed_append (no_lineFeed_append (no_lineFeed_append (Command.text_line h) (by decide))
    hlocation) (by decide)

theorem Located.FromReader.text_line {c : Located} (h : c.FromReader) : '\n' ∉ c.text.toList := by
  obtain ⟨hfile, source, commands, hread, hc⟩ := h
  exact Located.text_line (Command.read_sound hread c hc).1 hfile

namespace Lowering

theorem isSymbol_suffixed {stem : String} (h : isSymbol stem.toList) (n : Nat) :
    isSymbol (suffixed stem n).toList := by
  rw [suffixed_toList]
  refine isSymbol_append h (List.all_eq_true.2 (List.forall_mem_cons.2 ⟨by decide, fun c hc => ?_⟩))
  exact isSymbolChar_digit (Decimal.isDigit_of_mem_digits hc)

theorem isSymbol_returnLabel {callee : String} (h : isSymbol callee.toList) (n : Nat) :
    isSymbol (returnLabel callee n).toList := by
  rw [returnLabel_eq]
  refine isSymbol_suffixed ?_ n
  rw [String.toList_append]
  exact isSymbol_append h (by decide)

theorem isSymbol_comparison {unit : String} (h : isSymbol unit.toList) (op : Operation) (n : Nat) :
    isSymbol (trueLabel unit op n).toList ∧ isSymbol (endLabel unit op n).toList := by
  have hstem (tail : String) (htail : tail.toList.all isSymbolChar) :
      isSymbol (unit ++ "." ++ capitals op ++ tail).toList := by
    simp only [String.toList_append, List.append_assoc]
    refine isSymbol_append h ?_
    rw [List.all_append, List.all_append, htail]
    cases op <;> rfl
  rw [trueLabel_eq, endLabel_eq]
  exact ⟨isSymbol_suffixed (hstem _ (by decide)) n, isSymbol_suffixed (hstem _ (by decide)) n⟩

theorem segmentAddress_writable (base : Base) {index : Word} (h : index.toNat ≤ Word.maxLiteral)
    (into : Dest) : ∀ i ∈ segmentAddress base index into, i.Writable := by
  have hbase : isSymbol base.symbol.toList := by cases base <;> decide
  simp only [segmentAddress, List.forall_mem_cons]
  exact ⟨hbase, trivial, h, trivial, List.forall_mem_nil _⟩

theorem call_writable {target returnTo : String} {args : Word} (htarget : isSymbol target.toList)
    (hargs : args.toNat ≤ Word.maxLiteral) (hreturn : isSymbol returnTo.toList) :
    ∀ i ∈ call target args returnTo, i.Writable := by
  have hframe : ∀ i ∈ enterFrame args, i.Writable := by
    simp only [enterFrame, List.forall_mem_cons]
    exact ⟨by decide, by decide, by decide, by decide, hargs, by decide⟩
  simp only [call, List.forall_mem_append]
  refine ⟨⟨⟨⟨List.forall_mem_cons.2 ⟨hreturn, by decide⟩, by decide⟩, by decide⟩, hframe⟩, ?_⟩
  simp only [List.forall_mem_cons]
  exact ⟨htarget, trivial, hreturn, List.forall_mem_nil _⟩

theorem ret_writable : ∀ i ∈ ret, i.Writable := by decide

theorem binary_writable (comp : Comp) : ∀ i ∈ binary comp, i.Writable := by
  simp only [binary, List.forall_mem_cons]
  exact ⟨by decide, trivial, trivial, trivial, trivial, List.forall_mem_nil _⟩

theorem unary_writable (comp : Comp) : ∀ i ∈ unary comp, i.Writable := by
  simp only [unary, List.forall_mem_cons]
  exact ⟨by decide, trivial, trivial, List.forall_mem_nil _⟩

section Fragments

variable {unit : String} (hunit : isSymbol unit.toList)
include hunit

theorem push_writable {segment : Segment} {index : Word} (hi : segment.Admits index) :
    ∀ i ∈ push unit segment index, i.Writable := by
  unfold push
  refine List.forall_mem_append.2 ⟨?_, by decide⟩
  cases hseg : segment.addressing with
  | immediate => exact List.forall_mem_cons.2 ⟨hi.1, by decide⟩
  | static => exact List.forall_mem_cons.2 ⟨isSymbol_suffixed hunit index.toNat, by decide⟩
  | indirect base =>
    exact List.forall_mem_append.2 ⟨segmentAddress_writable base hi.1 _, by decide⟩
  | direct base => exact List.forall_mem_cons.2 ⟨hi.direct_le hseg, by decide⟩

theorem pop_writable {segment : Segment} {index : Word} (hi : segment.Admits index) :
    ∀ i ∈ pop unit segment index, i.Writable := by
  unfold pop
  cases hseg : segment.addressing with
  | immediate => exact List.forall_mem_cons.2 ⟨by decide, by decide⟩
  | static =>
    exact List.forall_mem_append.2 ⟨by decide,
      List.forall_mem_cons.2 ⟨isSymbol_suffixed hunit index.toNat, by decide⟩⟩
  | indirect base =>
    simp only [List.forall_mem_append]
    exact ⟨⟨⟨segmentAddress_writable base hi.1 _, by decide⟩, by decide⟩, by decide⟩
  | direct base =>
    exact List.forall_mem_append.2 ⟨by decide, List.forall_mem_cons.2 ⟨hi.direct_le hseg, by decide⟩⟩

theorem comparison_writable (op : Operation) (condition : Jump) (position : Nat) :
    ∀ i ∈ comparison unit op condition position, i.Writable := by
  obtain ⟨htrue, hend⟩ := isSymbol_comparison hunit op position
  simp only [comparison, List.forall_mem_cons]
  exact ⟨by decide, trivial, trivial, trivial, trivial, htrue, trivial, by decide, trivial, trivial,
    hend, trivial, htrue, by decide, trivial, trivial, hend, List.forall_mem_nil _⟩

theorem fragment_writable (position : Nat) {c : Command} (h : c.WellFormed) :
    ∀ i ∈ fragment unit position c, i.Writable := by
  cases c with
  | push segment index => exact push_writable hunit h
  | pop segment index => exact pop_writable hunit h.2
  | operate op =>
    cases op with
    | add | sub | and | or => exact binary_writable _
    | neg | not => exact unary_writable _
    | eq | gt | lt => exact comparison_writable hunit _ _ position
  | label name => exact List.forall_mem_cons.2 ⟨h, List.forall_mem_nil _⟩
  | goto name => exact List.forall_mem_cons.2 ⟨h, by decide⟩
  | ifGoto name =>
    exact List.forall_mem_append.2 ⟨by decide, List.forall_mem_cons.2 ⟨h, by decide⟩⟩
  | function name locals =>
    refine List.forall_mem_cons.2 ⟨h.1, fun i hi => ?_⟩
    obtain ⟨code, hcode, hi⟩ := List.mem_flatten.1 hi
    rw [List.eq_of_mem_replicate hcode] at hi
    exact push_writable hunit ⟨by decide, fun _ hc => by cases hc⟩ i hi
  | call name args => exact call_writable h.1 h.2 (isSymbol_returnLabel h.1 position)
  | ret => exact ret_writable

end Fragments

structure Site.Sound (s : Site) : Prop where
  unit : isSymbol s.unit.toList
  command : s.command.WellFormed

theorem unitSites_origin {unit : String} {n : Nat} {commands : List Located} {s : Site}
    (h : s ∈ unitSites unit n commands) : s.unit = unit ∧ s.located ∈ commands := by
  induction commands generalizing n with
  | nil => cases h
  | cons c cs ih =>
    obtain _ | ⟨_, h⟩ := h
    · exact ⟨rfl, List.mem_cons_self⟩
    · exact ⟨(ih h).1, List.mem_cons_of_mem _ (ih h).2⟩

theorem sitesFrom_sound {units : List SourceUnit} (hunits : ∀ u ∈ units, u.Accepted) {n : Nat} :
    ∀ s ∈ sitesFrom n units, s.Sound := by
  induction units generalizing n with
  | nil => exact List.forall_mem_nil _
  | cons u us ih =>
    obtain ⟨hu, hus⟩ := List.forall_mem_cons.1 hunits
    refine List.forall_mem_append.2 ⟨fun s hs => ?_, ih hus⟩
    obtain ⟨hunit, hlocated⟩ := unitSites_origin hs
    exact ⟨hunit ▸ hu.1, hu.wellFormed _ hlocated⟩

theorem validate_eq_ok {options : Options} (h : options.validate = .ok ()) :
    options.stackBase.toNat ≤ Word.maxLiteral ∧ isSymbol options.entryPoint.toList := by
  unfold Options.validate at h
  split at h
  · cases h
  next hbase =>
    split at h
    next hentry => exact ⟨Nat.le_of_not_lt hbase, hentry⟩
    · cases h

theorem bootNote_line {options : Options} (h : isSymbol options.entryPoint.toList) :
    '\n' ∉ (bootNote options).toList := by
  refine no_lineFeed_append (no_lineFeed_append ?_ (no_lineFeed_symbol h)) (by decide)
  exact no_lineFeed_append (no_lineFeed_append (by decide) (no_lineFeed_numeral _)) (by decide)

theorem bootCode_writable {options : Options} (h : options.validate = .ok ())
    (withBootstrap : Bool) : ∀ i ∈ bootCode options withBootstrap, i.Writable := by
  obtain ⟨hbase, hentry⟩ := validate_eq_ok h
  cases withBootstrap with
  | false => exact List.forall_mem_nil _
  | true =>
    have hcall := call_writable hentry (show (0 : Word).toNat ≤ Word.maxLiteral by decide)
      (isSymbol_returnLabel hentry 0)
    have hset : ∀ i ∈ [Statement.value options.stackBase, .assign .toD (.y .a),
        .symbol stackPointer, .assign .toM .d], i.Writable :=
      List.forall_mem_cons.2 ⟨hbase, by decide⟩
    exact List.forall_mem_append.2 ⟨hset, hcall⟩

theorem programCode_writable {options : Options} (hoptions : options.validate = .ok ())
    (withBootstrap : Bool) {units : List SourceUnit} (hunits : ∀ u ∈ units, u.Accepted) :
    ∀ i ∈ programCode options withBootstrap units, i.Writable := by
  refine List.forall_mem_append.2 ⟨bootCode_writable hoptions withBootstrap, fun i hi => ?_⟩
  obtain ⟨s, hs, hi⟩ := List.mem_flatMap.1 hi
  have hsound := sitesFrom_sound hunits s hs
  exact fragment_writable hsound.unit s.position hsound.command i hi

theorem comments_program_line {options : Options} (hoptions : options.validate = .ok ())
    (withBootstrap : Bool) {units : List SourceUnit}
    (hunits : ∀ u ∈ units, ∀ c ∈ u.commands, c.FromReader) :
    ∀ text ∈ comments (program options withBootstrap units), '\n' ∉ text.toList := by
  rw [comments_program]
  split
  next =>
    refine List.forall_mem_append.2 ⟨?_, List.forall_mem_map.2 fun c hc => ?_⟩
    · split
      · exact List.forall_mem_cons.2 ⟨bootNote_line (validate_eq_ok hoptions).2, List.forall_mem_nil _⟩
      · exact List.forall_mem_nil _
    · obtain ⟨u, hu, hc⟩ := List.mem_flatMap.1 hc
      exact (hunits u hu c hc).text_line
  next => exact List.forall_mem_nil _

theorem program_writable {options : Options} (hoptions : options.validate = .ok ())
    (withBootstrap : Bool) {units : List SourceUnit} (hunits : ∀ u ∈ units, u.Readable) :
    ∀ line ∈ program options withBootstrap units, line.Writable := by
  intro line hline
  cases line with
  | statement s =>
    have hs := mem_statements.2 hline
    rw [statements_program] at hs
    exact programCode_writable hoptions withBootstrap (fun u hu => (hunits u hu).accepted) s hs
  | comment note =>
    exact comments_program_line hoptions withBootstrap (fun u hu => (hunits u hu).fromReader) note
      (mem_comments.2 hline)

/-- The statements that are read from the text of a program are its code. -/
theorem statements_of_read {options : Options} (hoptions : options.validate = .ok ())
    {withBootstrap : Bool} {units : List SourceUnit} (hunits : ∀ u ∈ units, u.Readable)
    {lines : List Numbered} (h : Assembly.read (assemblyText options withBootstrap units) = .ok lines) :
    lines.map (·.statement) = programCode options withBootstrap units := by
  obtain ⟨source, hsource, hcode⟩ := read_render (program_writable hoptions withBootstrap hunits)
  cases hsource.symm.trans h
  rw [hcode, statements_program]

theorem countP_isInstruction (code : List Line) :
    code.countP (·.isInstruction) = codeSize (statements code) := by
  induction code with
  | nil => rfl
  | cons line code ih =>
    rw [List.countP_cons, ih]
    cases line with
    | statement s => exact (codeSize_cons s (statements code)).symm
    | comment text => rfl

/-- The text of a program whose units were read and whose options are valid has no malformed line.
Assembling it succeeds if every label is new where it is declared and the store can hold the program, and
then gives a word for every line that is an instruction. -/
theorem generated_text_assembles {options : Options} (hoptions : options.validate = .ok ())
    (withBootstrap : Bool) {units : List SourceUnit} (hunits : ∀ u ∈ units, u.Readable) :
    let code := program options withBootstrap units
    let count := code.countP (·.isInstruction)
    (∀ errors, assemble (assemblyText options withBootstrap units) = .error errors → ∀ e ∈ errors,
      (∃ line name, e = .duplicateLabel line name) ∨ e = .tooLarge count) ∧
    (∀ p, assemble (assemblyText options withBootstrap units) = .ok p → p.words.size = count) ∧
    ((∃ p, assemble (assemblyText options withBootstrap units) = .ok p) ↔
      Bindable (statements code) ∧ count ≤ romSize) := by
  have hwritable := program_writable hoptions withBootstrap hunits
  obtain ⟨lines, hread, hlines⟩ := read_render hwritable
  have hcount := countP_isInstruction (program options withBootstrap units)
  refine ⟨fun errors herrors e he => ?_, fun p hp => ?_, ?_⟩
  · rw [hcount, ← hlines]
    exact mem_errors_of_read hread herrors he
  · rw [hcount]
    exact (assembles_render hwritable hp).size
  · rw [hcount, ← hlines]
    exact exists_assemble_iff hread

section Sample

def edgeSource : String :=
  "function F 1\npush that 32767\npop static 32767\npop temp 7\ncall F 32767\nlt\n"

def edgeUnit : SourceUnit where
  name := "$"
  commands :=
    [⟨.function "F" 1, "a\r//b", 1⟩, ⟨.push .that 32767, "a\r//b", 2⟩,
     ⟨.pop .static 32767, "a\r//b", 3⟩, ⟨.pop .temp 7, "a\r//b", 4⟩,
     ⟨.call "F" 32767, "a\r//b", 5⟩, ⟨.operate .lt, "a\r//b", 6⟩]

def edgeOptions : Options := { stackBase := 32767, entryPoint := "F" }

theorem edgeUnit_readable : ∀ u ∈ [edgeUnit], u.Readable := by
  intro u hu
  obtain rfl := List.mem_singleton.1 hu
  exact ⟨by decide, "a\r//b", edgeSource, by decide, rfl⟩

theorem generated_text_assembles_edgeUnit : edgeOptions.validate = .ok () ∧
    ∃ p, assemble (assemblyText edgeOptions true [edgeUnit]) = .ok p ∧ p.words.size = 144 := by
  have hoptions : edgeOptions.validate = .ok () := rfl
  obtain ⟨-, hsize, hok⟩ := generated_text_assembles hoptions true edgeUnit_readable
  have hcount : codeSize (programCode edgeOptions true [edgeUnit]) = 144 := rfl
  have hbind : Bindable (programCode edgeOptions true [edgeUnit]) := by
    rw [Bindable]
    decide
  rw [← statements_program, ← countP_isInstruction] at hcount
  rw [← statements_program] at hbind
  rw [hcount] at hsize hok
  obtain ⟨p, hp⟩ := hok.2 ⟨hbind, by decide⟩
  exact ⟨hoptions, p, hp, hsize p hp⟩

end Sample

end Lowering

end HackStack
