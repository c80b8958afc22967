import TypedReads.Json.Reader

/-!
# Documents

A document is a text that holds one JSON object. `Document.entries` lists the members of its root
in order, repeated keys included, each with the value it denotes; `Document.object` gives the
object they define.
-/

namespace TypedReads

/-- Why a text is no document. -/
inductive DecodeError where
  /-- The text is no JSON from some offset on. -/
  | malformed (code : SyntaxCode) (offset : Nat)
  /-- The root is a value of another type. -/
  | root (typeName : String)
  deriving DecidableEq

/-- The message of an error. -/
def DecodeError.message : DecodeError → Text
  | malformed code offset => units code.name ++ units " at offset " ++ Text.ofNat offset
  | root typeName => units "Expected an object at the document root, got " ++ units typeName

namespace Document

/-- The members of the root as they are written. -/
def members (t : Text) : Except DecodeError (List (Text × Json)) :=
  match Json.read t with
  | .ok (.object members) => .ok members
  | .ok root => .error (.root root.typeName)
  | .error flaw => .error (.malformed flaw.code (t.length - flaw.start.length))

/-- The members of the root in order, with the values they denote. -/
def entries (t : Text) : Except DecodeError (List (Text × Json)) :=
  (members t).map Json.normalizeMembers

/-- The object that a document denotes. -/
def object (t : Text) : Except DecodeError Json := (entries t).map Json.record

end Document

end TypedReads
