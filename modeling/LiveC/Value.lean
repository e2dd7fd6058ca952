import LiveC.Double
import LiveC.Decimal.Notation
import LiveC.Text.Bytes

/-!
Values that cross the boundary between the host and compiled code.
-/

namespace LiveC

/-- A value passed to compiled code or returned by it. -/
inductive Value where
  | int (v : Word)
  | float (v : Double)
  | ptr (address : Word)
  | void
  deriving DecidableEq, Repr

namespace Value

/-- The value as a signed word, if a general register holds it. -/
def int? : Value → Option Int
  | int v | ptr v => some v.toInt
  | _ => none

/-- The value as an address, if a general register holds it. -/
def address? : Value → Option Nat
  | int v | ptr v => some v.toNat
  | _ => none

def float? : Value → Option Double
  | float v => some v
  | _ => none

def isVoid : Value → Bool
  | void => true
  | _ => false

/-- The plain written form. -/
def render : Value → String
  | int v => toString v.toInt
  | float v => v.render
  | ptr v => "0x" ++ Text.hex v.toNat
  | void => "void"

/-- The written form that names the kind. -/
def renderDebug : Value → String
  | int v => s!"Int({v.toInt})"
  | float v => s!"Float({v.renderDebug})"
  | ptr v => s!"Ptr({v.toNat})"
  | void => "Void"

end Value

end LiveC
