import TypedReads.Value.Display

/-!
# JSON texts of values

The JSON form of a value or the error that tells why it has none, its text with a width of
indentation, and its text on one line.
-/

namespace TypedReads

-- Powers are the core ones, also where a monoid would offer its own.
attribute [local instance (2000)] instPowNat instNatPowNat

namespace Store

/-- The JSON value that a value stands for, or why there is none. -/
def toJson (s : Store) (v : Value) : Except (Failure EncodeError) Json :=
  match s.encode v with
  | .ok j => .ok j
  | .error obstacle =>
    match s.explain obstacle with
    | .ok e => .error (.refused e)
    | .error f => .error (.fault f)

/-- The JSON value without repeated keys and in listing order. -/
def normalize (s : Store) (v : Value) : Except (Failure EncodeError) Json :=
  (s.toJson v).map Json.normalize

end Store

/-- The longest text there is, in code units. -/
def maxTextLength : Nat := 2 ^ (29 : Nat) - 24

/-- A width as a number of spaces: without its fraction, and NaN as none. A negative width and
one that no text is long enough for are faults. -/
def spacesOf (width : Double) : Except Fault Nat :=
  match width with
  | .nan => .ok 0
  | _ =>
    match width.trunc? with
    | none => .error .spacing
    | some n => if 0 ≤ n ∧ n ≤ maxTextLength then .ok n.toNat else .error .spacing

namespace Store

/-- The text of a value. The width of the indentation matters only once the value has a JSON
form. -/
def encodeText (s : Store) (v : Value) (width : Double) : Except (Failure EncodeError) Text :=
  match s.toJson v with
  | .error e => .error e
  | .ok j =>
    match spacesOf width with
    | .error f => .error (.fault f)
    | .ok indent => .ok (j.write indent)

/-- The text of a value on one line. -/
def encodeLine (s : Store) (v : Value) : Except (Failure EncodeError) Text :=
  (s.toJson v).map (Json.write 0)

end Store

end TypedReads
