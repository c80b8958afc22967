import TypedReads.Value.Native

/-!
# Scalars

What a stored value is as far as typed reads are concerned. A number counts as an integer if it is
one within the safe bound, and a box keeps its kind unless it holds something that its kind
cannot.
-/

namespace TypedReads

/-- A stored value as a typed read sees it. -/
inductive Scalar where
  | text (t : Text)
  | char (t : Text)
  /-- An integer in the range of its kind. -/
  | integral (kind : IntegralKind) (n : Int)
  | floating (kind : FloatingKind) (x : Double)
  | bool (b : Bool)
  /-- Nothing is stored. -/
  | absent
  /-- A container or another value without a scalar reading. -/
  | other (v : Value)
  deriving DecidableEq

namespace Scalar

/-- A plain number: an integer of 32 or 64 bits, or a double. -/
def ofNumber (x : Double) : Scalar :=
  match x.safeInt? with
  | some n => .integral (if IntegralKind.int.holds n then .int else .long) n
  | none => .floating .double x

/-- An integer of any size: one of 64 bits, or a double. -/
def ofInteger (n : Int) : Scalar :=
  if IntegralKind.long.holds n then .integral .long n else .floating .double (Double.ofInt n)

/-- A boxed number. -/
def ofBox (kind : NumericKind) (x : Double) : Scalar :=
  match kind with
  | .floating k => .floating k x
  | .integral k =>
    match x.safeInt? with
    | some n => .integral k (k.wrap n)
    | none => .floating .double x

/-- The scalar that a stored value is. -/
def classify (s : Store) (v : Value) : Scalar :=
  match v with
  | .null | .undefined => .absent
  | .text t => .text t
  | .bool b => .bool b
  | .number x => ofNumber x
  | .integer n => ofInteger n
  | .object r =>
    match s.get? r with
    | some (.numberBox kind x) => ofBox kind x
    | some (.charBox t) => .char t
    | _ => .other v
  | .symbol .. | .function _ => .other v

end Scalar

end TypedReads
