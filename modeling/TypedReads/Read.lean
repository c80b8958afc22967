import TypedReads.Number.Numeral
import TypedReads.Value.JsonText
import TypedReads.Value.Scalar

/-!
# Typed reads

A typed read asks a stored value for one of nine target types. It takes the value as it is if the
types agree, converts between numbers, and parses texts; whatever has no reading is absent, never
an error. `Store.read` asks for any target; the reads of the single types stand before it.
-/

namespace TypedReads

/-- A type that a stored value can be read as. -/
inductive Target where
  | byte
  | short
  | integer
  | long
  | float
  | double
  | char
  | string
  | boolean
  deriving DecidableEq, Inhabited

namespace Target

/-- The targets in the order of reports. -/
def all : List Target := [byte, short, integer, long, float, double, char, string, boolean]

/-- The name of a target. -/
def name : Target → String
  | byte => "byte"
  | short => "short"
  | integer => "integer"
  | long => "long"
  | float => "float"
  | double => "double"
  | char => "char"
  | string => "string"
  | boolean => "boolean"

/-- The target of a name. -/
def ofName? (t : Text) : Option Target := all.find? fun target => units target.name = t

end Target

/-- The result of a typed read. -/
inductive Coerced where
  /-- A number; integers of up to 32 bits are among them. -/
  | number (x : Double)
  /-- A 64-bit integer. -/
  | integer (n : Int)
  | bool (b : Bool)
  | text (t : Text)
  deriving DecidableEq

namespace Scalar

/-- A scalar as an integer of a kind. -/
def toIntegral (scalar : Scalar) (kind : IntegralKind) (mode : Narrowing) : Option Int :=
  match scalar with
  | .integral k n => if k = kind then some n else narrowIntegral n kind mode
  | .floating _ x => truncateFloating x kind mode
  | .text t => t.integral? kind
  | _ => none

/-- A number as a floating number of a kind. -/
def widen (x : Double) (kind : FloatingKind) (mode : Narrowing) : Option Double :=
  match kind with
  | .float => narrowToSingle x mode
  | .double => some x

/-- A scalar as a floating number of a kind. -/
def toFloating (scalar : Scalar) (kind : FloatingKind) (mode : Narrowing) : Option Double :=
  match scalar with
  | .floating k x => if k = kind then some x else widen x kind mode
  | .integral _ n => widen (Double.ofInt n) kind mode
  | .text t => t.floating?.bind fun x => widen x kind mode
  | _ => none

/-- A scalar as a single code unit. -/
def toChar : Scalar → Option Text
  | .char t => some t
  | .text t => if t.length = 1 then some t else none
  | _ => none

/-- An ASCII letter in lower case; any other unit as it is. -/
def lowerUnit (u : CodeUnit) : CodeUnit := if unit 'A' ≤ u ∧ u ≤ unit 'Z' then u + 32 else u

/-- A scalar as a truth value: one as it is, or its name in any letter case. -/
def toBoolean : Scalar → Option Bool
  | .bool b => some b
  | .text t =>
    let lowered := t.map lowerUnit
    if lowered = units "true" then some true
    else if lowered = units "false" then some false
    else none
  | _ => none

end Scalar

namespace Store

/-- The text of a value without a scalar reading: its JSON text, or else its display text. -/
def otherText (s : Store) (v : Value) : Except Fault Text :=
  match s.encodeLine v with
  | .ok t => .ok t
  | .error (.refused _) => s.display v
  | .error (.fault f) => .error f

/-- A scalar as a text; only the absent one has none. -/
def scalarText (s : Store) : Scalar → Except Fault (Option Text)
  | .absent => .ok none
  | .text t | .char t => .ok (some t)
  | .integral _ n => .ok (some (Text.ofInt n))
  | .floating .float x => .ok (some x.toSingleText)
  | .floating .double x => .ok (some x.toText)
  | .bool b => .ok (some (Value.bool b).leafText)
  | .other v => (s.otherText v).map some

/-- A stored value read as an integer of a kind. -/
def readIntegral (s : Store) (kind : IntegralKind) (v : Value) (mode : Narrowing) : Option Int :=
  (Scalar.classify s v).toIntegral kind mode

/-- A stored value read as a floating number of a kind. -/
def readFloating (s : Store) (kind : FloatingKind) (v : Value) (mode : Narrowing) :
    Option Double :=
  (Scalar.classify s v).toFloating kind mode

/-- A stored value read as a single code unit. -/
def readChar (s : Store) (v : Value) : Option Text := (Scalar.classify s v).toChar

/-- A stored value read as a truth value. -/
def readBoolean (s : Store) (v : Value) : Option Bool := (Scalar.classify s v).toBoolean

/-- A stored value read as a text. -/
def readString (s : Store) (v : Value) : Except Fault (Option Text) :=
  s.scalarText (Scalar.classify s v)

/-- A stored value read as a target. -/
def read (s : Store) (target : Target) (v : Value) (mode : Narrowing) :
    Except Fault (Option Coerced) :=
  let small (kind : IntegralKind) : Option Coerced :=
    (s.readIntegral kind v mode).map fun n => .number (Double.ofInt n)
  match target with
  | .byte => .ok (small .byte)
  | .short => .ok (small .short)
  | .integer => .ok (small .int)
  | .long => .ok ((s.readIntegral .long v mode).map .integer)
  | .float => .ok ((s.readFloating .float v mode).map .number)
  | .double => .ok ((s.readFloating .double v mode).map .number)
  | .char => .ok ((s.readChar v).map .text)
  | .string => (s.readString v).map fun t => t.map .text
  | .boolean => .ok ((s.readBoolean v).map .bool)

end Store

end TypedReads
