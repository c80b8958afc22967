import TypedReads.Json.Lexer

/-!
# From tokens to a JSON value

`Json.read` reads a document with one value at its root. The grammar is a machine with a stack:
`Due` says what may stand next in the innermost open container, and a `Frame` keeps each
container outside it. The first token that does not fit, or is none, ends the reading with a code
and the place of the token; a document that breaks off fails at its end.
-/

namespace TypedReads

/-- An open container that waits for the value of one of its places. What it holds already is
kept backwards. -/
inductive Frame where
  /-- An array, with the items before. -/
  | array (before : List Json)
  /-- An object, with the members before and the key of the value. -/
  | object (before : List (Text × Json)) (key : Text)

/-- What stands next. What the innermost container holds already is kept backwards. -/
inductive Due where
  /-- The value of the innermost frame, or of the root. -/
  | value
  /-- The first item of an array, or its end. -/
  | firstItem
  /-- A comma or the end of an array. -/
  | nextItem (before : List Json)
  /-- The first key of an object, or its end. -/
  | firstMember
  /-- A comma or the end of an object. -/
  | nextMember (before : List (Text × Json))
  /-- A key. -/
  | key (before : List (Text × Json))
  /-- The colon behind a key. -/
  | colon (before : List (Text × Json)) (key : Text)
  /-- Nothing more. -/
  | done (root : Json)

/-- The state of reading: what is due, inside which containers. -/
structure Reading where
  /-- The containers that wait, innermost first. -/
  frames : List Frame
  /-- What is due. -/
  due : Due

/-- The value of a numeral. An integer that a double would round stays exact if it fits 64
bits. -/
def Numeral.toJson (n : Numeral) : Json :=
  match n.toInt? with
  | some i =>
    if (-Double.safeBound ≤ i ∧ i ≤ Double.safeBound) ∨ ¬ IntegralKind.long.holds i then
      .number n.toDouble
    else .integer i
  | none => .number n.toDouble

namespace Reading

/-- The state behind a complete value. -/
def complete (frames : List Frame) (value : Json) : Reading :=
  match frames with
  | [] => ⟨[], .done value⟩
  | .array before :: frames => ⟨frames, .nextItem (value :: before)⟩
  | .object before key :: frames => ⟨frames, .nextMember ((key, value) :: before)⟩

/-- Reads the start of a value. -/
def value (frames : List Frame) : Token → Except SyntaxCode Reading
  | .openBrace => .ok ⟨frames, .firstMember⟩
  | .openBracket => .ok ⟨frames, .firstItem⟩
  | .word j => .ok (complete frames j)
  | .number n => .ok (complete frames n.toJson)
  | .string t => .ok (complete frames (.text t))
  | _ => .error .valueExpected

/-- Reads a key. -/
def key (frames : List Frame) (before : List (Text × Json)) : Token → Except SyntaxCode Reading
  | .string t => .ok ⟨frames, .colon before t⟩
  | _ => .error .propertyNameExpected

/-- Reads one token. -/
def next (r : Reading) (token : Token) : Except SyntaxCode Reading :=
  match token, r.due with
  | .invalid code, _ => .error code
  | t, .value => value r.frames t
  | .closeBracket, .firstItem => .ok (complete r.frames (.array []))
  | t, .firstItem => value (.array [] :: r.frames) t
  | .closeBracket, .nextItem before => .ok (complete r.frames (.array before.reverse))
  | .comma, .nextItem before => .ok ⟨.array before :: r.frames, .value⟩
  | _, .nextItem _ => .error .commaExpected
  | .closeBrace, .firstMember => .ok (complete r.frames (.object []))
  | .comma, .firstMember => .error .valueExpected
  | t, .firstMember => key r.frames [] t
  | .closeBrace, .nextMember before => .ok (complete r.frames (.object before.reverse))
  | .comma, .nextMember before => .ok ⟨r.frames, .key before⟩
  | _, .nextMember _ => .error .commaExpected
  | t, .key before => key r.frames before t
  | .colon, .colon before key => .ok ⟨.object before key :: r.frames, .value⟩
  | _, .colon _ _ => .error .colonExpected
  | _, .done _ => .error .endOfFileExpected

/-- The value read when the text ends. -/
def finish (r : Reading) : Except SyntaxCode Json :=
  match r.due with
  | .value => .error .valueExpected
  | .firstItem | .nextItem _ => .error .closeBracketExpected
  | .firstMember | .nextMember _ => .error .closeBraceExpected
  | .key _ => .error .propertyNameExpected
  | .colon _ _ => .error .colonExpected
  | .done root => .ok root

end Reading

/-- What is wrong with a document, and the text from there on. -/
structure SyntaxFlaw where
  /-- What is wrong. -/
  code : SyntaxCode
  /-- The document from the flaw on. -/
  start : Text

/-- Reads tokens from a state on. -/
def Reading.run (r : Reading) : List Lexeme → Except SyntaxFlaw Json
  | [] => r.finish.mapError fun code => ⟨code, []⟩
  | lexeme :: rest =>
    match r.next lexeme.token with
    | .ok r => r.run rest
    | .error code => .error ⟨code, lexeme.start⟩

/-- Reads a document with any value at its root. -/
def Json.read (t : Text) : Except SyntaxFlaw Json := Reading.run ⟨[], .value⟩ t.tokens

end TypedReads
