set_option autoImplicit false

namespace HackStack

abbrev Word := UInt16

namespace Word

/-- The largest number that an address instruction can load. -/
def maxLiteral : Nat := 32767

def isNegative (w : Word) : Bool := 32768 ≤ w.toNat

def signed (w : Word) : Int :=
  if isNegative w then (w.toNat : Int) - 65536 else (w.toNat : Int)

def binary (w : Word) : String :=
  String.ofList ((List.range 16).map fun i => if w.toNat.testBit (15 - i) then '1' else '0')

def hex (w : Word) : String :=
  "0x" ++ String.ofList ([12, 8, 4, 0].map fun i => Nat.digitChar ((w.toNat >>> i) % 16))

end Word

/-- What the arithmetic unit does: it presets its two inputs, adds or conjoins them, and may complement
the result. -/
structure Control where
  zeroX : Bool
  notX : Bool
  zeroY : Bool
  notY : Bool
  sum : Bool
  notOut : Bool
  deriving DecidableEq, Repr

namespace Control

def ofWord (w : Word) : Control where
  zeroX := w &&& 0x0800 != 0
  notX := w &&& 0x0400 != 0
  zeroY := w &&& 0x0200 != 0
  notY := w &&& 0x0100 != 0
  sum := w &&& 0x0080 != 0
  notOut := w &&& 0x0040 != 0

def preset (zero complement : Bool) (w : Word) : Word :=
  let w := if zero then 0 else w
  if complement then ~~~w else w

def output (c : Control) (x y : Word) : Word :=
  let x := preset c.zeroX c.notX x
  let y := preset c.zeroY c.notY y
  let out := if c.sum then x + y else x &&& y
  if c.notOut then ~~~out else out

end Control

end HackStack
