import HackStack.Lowering.Program

set_option autoImplicit false

/-! # Sites

A site is a command of a program together with its unit and its position, which is all that its code
depends on. A program is lowered to the code of its bootstrap followed by the code of its sites, and the
positions of the sites ascend through all units. -/

namespace HackStack

open Assembly

def Command.declaredNames : Command → List String
  | .label name => [name]
  | .function name _ => [name]
  | _ => []

def declaredNames (units : List SourceUnit) : List String :=
  units.flatMap fun u => u.commands.flatMap fun c => c.command.declaredNames

namespace Assembly

def Line.statement? : Line → Option Statement
  | .statement s => some s
  | .comment _ => none

def statements (code : List Line) : List Statement := code.filterMap Line.statement?

theorem mem_statements {code : List Line} {s : Statement} :
    s ∈ statements code ↔ .statement s ∈ code := by
  rw [statements, List.mem_filterMap]
  constructor
  · rintro ⟨line, hline, heq⟩
    cases line with
    | statement t =>
      cases heq
      exact hline
    | comment note => cases heq
  · exact fun h => ⟨_, h, rfl⟩

@[simp]
theorem statements_append (xs ys : List Line) :
    statements (xs ++ ys) = statements xs ++ statements ys := List.filterMap_append

@[simp]
theorem statements_map (code : List Statement) : statements (code.map .statement) = code := by
  induction code with
  | nil => rfl
  | cons s code ih => exact congrArg (s :: ·) ih

def Line.comment? : Line → Option String
  | .statement _ => none
  | .comment note => some note

def comments (code : List Line) : List String := code.filterMap Line.comment?

theorem mem_comments {code : List Line} {note : String} :
    note ∈ comments code ↔ .comment note ∈ code := by
  rw [comments, List.mem_filterMap]
  constructor
  · rintro ⟨line, hline, heq⟩
    cases line with
    | statement s => cases heq
    | comment other =>
      cases heq
      exact hline
  · exact fun h => ⟨_, h, rfl⟩

theorem comments_append (xs ys : List Line) : comments (xs ++ ys) = comments xs ++ comments ys :=
  List.filterMap_append

theorem comments_map (code : List Statement) : comments (code.map .statement) = [] := by
  rw [comments, List.filterMap_map, List.filterMap_eq_nil_iff]
  exact fun _ _ => rfl

end Assembly

namespace Lowering

/-- A command with what its code depends on. -/
structure Site where
  unit : String
  position : Nat
  located : Located
  deriving DecidableEq, Repr

namespace Site

def command (s : Site) : Command := s.located.command

def code (s : Site) : List Statement := fragment s.unit s.position s.command

def lines (annotate : Bool) (s : Site) : List Line :=
  (if annotate then [.comment s.located.text] else []) ++ s.code.map .statement

theorem statements_lines (annotate : Bool) (s : Site) : statements (s.lines annotate) = s.code := by
  cases annotate with
  | false => simp [lines]
  | true => exact statements_map s.code

end Site

def unitSites (unit : String) : Nat → List Located → List Site
  | _, [] => []
  | n, c :: cs => ⟨unit, n, c⟩ :: unitSites unit (n + positions c.command) cs

def positionsUsed : List Located → Nat
  | [] => 0
  | c :: cs => positions c.command + positionsUsed cs

def sitesFrom : Nat → List SourceUnit → List Site
  | _, [] => []
  | n, u :: us => unitSites u.name n u.commands ++ sitesFrom (n + positionsUsed u.commands) us

/-- The sites of a program. The bootstrap uses the first position. -/
def sites (withBootstrap : Bool) (units : List SourceUnit) : List Site :=
  sitesFrom (if withBootstrap then 1 else 0) units

def bootCode (options : Options) (withBootstrap : Bool) : List Statement :=
  if withBootstrap then
    bootstrap options.stackBase options.entryPoint (returnLabel options.entryPoint 0)
  else []

def bootNote (options : Options) : String :=
  "bootstrap: SP = " ++ Decimal.text options.stackBase.toNat ++ ", call " ++ options.entryPoint ++
    " 0"

def bootLines (options : Options) (withBootstrap : Bool) : List Line :=
  (if withBootstrap && options.annotate then [.comment (bootNote options)] else []) ++
    (bootCode options withBootstrap).map .statement

def programCode (options : Options) (withBootstrap : Bool) (units : List SourceUnit) :
    List Statement :=
  bootCode options withBootstrap ++ (sites withBootstrap units).flatMap Site.code

theorem foldl_located (commands : List Located) (options : Options) (unit : String) (n : Nat)
    (code : Array Line) :
    (commands.foldl Output.located ⟨⟨options, ⟨unit, n⟩⟩, code⟩).code.toList =
        code.toList ++ (unitSites unit n commands).flatMap (Site.lines options.annotate) ∧
      (commands.foldl Output.located ⟨⟨options, ⟨unit, n⟩⟩, code⟩).writer =
        ⟨options, ⟨unit, n + positionsUsed commands⟩⟩ := by
  induction commands generalizing n code with
  | nil => simp [unitSites, positionsUsed]
  | cons c cs ih =>
    have hstep : Output.located ⟨⟨options, ⟨unit, n⟩⟩, code⟩ c =
        ⟨⟨options, ⟨unit, n + positions c.command⟩⟩,
          code ++ Site.lines options.annotate ⟨unit, n, c⟩⟩ := rfl
    rw [List.foldl_cons, hstep]
    obtain ⟨hcode, hwriter⟩ := ih (n + positions c.command) (code ++ Site.lines options.annotate ⟨unit, n, c⟩)
    refine ⟨?_, ?_⟩
    · rw [hcode]
      simp [unitSites, List.flatMap_cons, List.append_assoc]
    · rw [hwriter]
      simp [positionsUsed, Nat.add_assoc]

theorem foldl_unit (units : List SourceUnit) (options : Options) (unit : String) (n : Nat)
    (code : Array Line) :
    (units.foldl Output.unit ⟨⟨options, ⟨unit, n⟩⟩, code⟩).code.toList =
      code.toList ++ (sitesFrom n units).flatMap (Site.lines options.annotate) := by
  induction units generalizing unit n code with
  | nil => simp [sitesFrom]
  | cons u us ih =>
    obtain ⟨hcode, hwriter⟩ := foldl_located u.commands options u.name n code
    have hunit : Output.unit ⟨⟨options, ⟨unit, n⟩⟩, code⟩ u =
        ⟨⟨options, ⟨u.name, n + positionsUsed u.commands⟩⟩,
          (u.commands.foldl Output.located ⟨⟨options, ⟨u.name, n⟩⟩, code⟩).code⟩ := by
      rw [← hwriter]
      rfl
    rw [List.foldl_cons, hunit, ih, hcode]
    simp [sitesFrom, List.append_assoc]

/-- The lines of a program are those of the bootstrap and then of every site. -/
theorem program_eq (options : Options) (withBootstrap : Bool) (units : List SourceUnit) :
    program options withBootstrap units =
      bootLines options withBootstrap ++
        (sites withBootstrap units).flatMap (Site.lines options.annotate) := by
  cases withBootstrap with
  | false => exact foldl_unit units options _ 0 #[]
  | true => exact foldl_unit units options _ 1 _

theorem statements_flatMap_lines (annotate : Bool) (ss : List Site) :
    statements (ss.flatMap (Site.lines annotate)) = ss.flatMap Site.code := by
  induction ss with
  | nil => rfl
  | cons s ss ih => simp [List.flatMap_cons, ih, Site.statements_lines]

theorem statements_program (options : Options) (withBootstrap : Bool) (units : List SourceUnit) :
    statements (program options withBootstrap units) = programCode options withBootstrap units := by
  rw [program_eq, statements_append, statements_flatMap_lines, programCode, bootLines,
    statements_append, statements_map]
  split <;> rfl

theorem map_located_unitSites (unit : String) (n : Nat) (commands : List Located) :
    (unitSites unit n commands).map (·.located) = commands := by
  induction commands generalizing n with
  | nil => rfl
  | cons c cs ih => rw [unitSites, List.map_cons, ih]

theorem map_located_sitesFrom (n : Nat) (units : List SourceUnit) :
    (sitesFrom n units).map (·.located) = units.flatMap (·.commands) := by
  induction units generalizing n with
  | nil => rfl
  | cons u us ih => rw [sitesFrom, List.map_append, map_located_unitSites, ih, List.flatMap_cons]

theorem located_mem_of_site {n : Nat} {units : List SourceUnit} {s : Site} (h : s ∈ sitesFrom n units) :
    s.located ∈ units.flatMap (·.commands) := by
  rw [← map_located_sitesFrom n]
  exact List.mem_map_of_mem h

theorem comments_sites (annotate : Bool) (ss : List Site) :
    comments (ss.flatMap (Site.lines annotate)) =
      if annotate then ss.map (·.located.text) else [] := by
  induction ss with
  | nil => cases annotate <;> rfl
  | cons s ss ih =>
    rw [List.flatMap_cons, comments_append, ih, Site.lines, comments_append, comments_map]
    cases annotate <;> rfl

/-- The comments of a program show the bootstrap and every command, in order. -/
theorem comments_program (options : Options) (withBootstrap : Bool) (units : List SourceUnit) :
    comments (program options withBootstrap units) =
      if options.annotate then
        (if withBootstrap then [bootNote options] else []) ++
          (units.flatMap (·.commands)).map (·.text)
      else [] := by
  rw [program_eq, comments_append, comments_sites, bootLines, comments_append, comments_map, sites,
    ← map_located_sitesFrom (if withBootstrap then 1 else 0), List.map_map]
  cases options.annotate <;> cases withBootstrap <;> rfl

end Lowering

end HackStack
