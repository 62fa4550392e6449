import HackStack.Assembly.Sink
import HackStack.Command.Reader
import HackStack.Lowering.Fragment
import HackStack.Options

set_option autoImplicit false

namespace HackStack

/-- The commands of a source file and the name that its statics are kept under. -/
structure SourceUnit where
  name : String
  commands : List Located
  deriving DecidableEq, Repr

def SourceUnit.declares (u : SourceUnit) (function : String) : Bool :=
  u.commands.any fun c => c.command.declares function

def SourceUnit.read (name file source : String) : Except (List SourceError) SourceUnit :=
  (fun commands => ⟨name, commands⟩) <$> Command.read file source

/-- The units of some readings, or the errors of all readings in order. -/
def SourceUnit.gather (readings : List (Except (List SourceError) SourceUnit)) :
    Except (List SourceError) (List SourceUnit) :=
  let errors := readings.flatMap fun
    | .ok _ => []
    | .error es => es
  if errors.isEmpty then .ok (readings.filterMap Except.toOption) else .error errors

inductive BootstrapMode where
  /-- If some unit declares the entry function. -/
  | auto
  | always
  | never
  deriving DecidableEq, Repr

def BootstrapMode.ofText? : String → Option BootstrapMode
  | "auto" => some .auto
  | "always" => some .always
  | "never" => some .never
  | _ => none

def declaresAny (units : List SourceUnit) (function : String) : Bool :=
  units.any fun u => u.declares function

def BootstrapMode.applies (mode : BootstrapMode) (units : List SourceUnit) (entry : String) : Bool :=
  match mode with
  | .auto => declaresAny units entry
  | .always => true
  | .never => false

namespace Lowering

open Assembly

structure Writer where
  options : Options := {}
  names : Names
  deriving DecidableEq, Repr

namespace Writer

def start (options : Options) (unit : String) : Writer := ⟨options, { unit := unit }⟩

def setUnit (w : Writer) (unit : String) : Writer := { w with names := w.names.setUnit unit }

def note (w : Writer) (text : String) : List Line := if w.options.annotate then [.comment text] else []

def command (w : Writer) (c : Command) : List Line × Writer :=
  ((fragment w.names.unit w.names.position c).map .statement,
   { w with names := w.names.advance (positions c) })

def located (w : Writer) (c : Located) : List Line × Writer :=
  let (code, next) := w.command c.command
  (w.note c.text ++ code, next)

def bootstrap (w : Writer) : List Line × Writer :=
  let base := w.options.stackBase
  let entry := w.options.entryPoint
  let code := Lowering.bootstrap base entry (returnLabel entry w.names.position)
  (w.note ("bootstrap: SP = " ++ Decimal.text base.toNat ++ ", call " ++ entry ++ " 0") ++
      code.map .statement,
   { w with names := w.names.advance 1 })

end Writer

structure Output where
  writer : Writer
  code : Array Line := #[]

namespace Output

def located (out : Output) (c : Located) : Output :=
  let (code, writer) := out.writer.located c
  ⟨writer, out.code ++ code⟩

def unit (out : Output) (u : SourceUnit) : Output :=
  u.commands.foldl located { out with writer := out.writer.setUnit u.name }

end Output

def program (options : Options) (withBootstrap : Bool) (units : List SourceUnit) : List Line :=
  let writer := Writer.start options ((units.head?.map (·.name)).getD "Bootstrap")
  let (code, writer) := if withBootstrap then writer.bootstrap else ([], writer)
  (units.foldl Output.unit ⟨writer, code.toArray⟩).code.toList

def assemblyText (options : Options) (withBootstrap : Bool) (units : List SourceUnit) : String :=
  render (program options withBootstrap units)

def lowerUnits (options : Options) (mode : BootstrapMode) (units : List SourceUnit) :
    String × Bool :=
  let withBootstrap := mode.applies units options.entryPoint
  (assemblyText options withBootstrap units, withBootstrap)

end Lowering

end HackStack
