import TypedReads.Fault
import TypedReads.Value.Date
import TypedReads.Value.Encode

/-!
# Display texts

The text of a value that has no JSON form. An array joins the texts of its items with commas, where
null, undefined and an array that is being joined already are empty; an adapter shows its JSON
text, or why it has none; a date shows its local text, and functions and foreign objects answer for
themselves. Other objects show the name of their class, unless a member that is a function answers
otherwise. A bare record has no text of its own, and a symbol has none inside an array.

`Store.explain` says why a value has no JSON form. The two belong together: an adapter without a
JSON form shows the explanation, and an explanation shows the name of a class, which may be any
value.
-/

namespace TypedReads

/-- Why a value has no JSON form. -/
structure EncodeError where
  /-- Where the cause stands. -/
  path : Path
  /-- What is wrong with it. -/
  message : Text
  deriving DecidableEq

/-- An error as the text of an adapter. -/
def EncodeError.note (e : EncodeError) : Text :=
  units "<unencodable: " ++ e.path.toText ++ units ": " ++ e.message ++ units ">"

/-- The text of a symbol. -/
def symbolText (description : Text) : Text := units "Symbol(" ++ description ++ units ")"

namespace Value

/-- The text of a value that is neither an object nor a function. -/
def leafText : Value → Text
  | .null => units "null"
  | .undefined => units "undefined"
  | .bool b => if b then units "true" else units "false"
  | .number x => x.toText
  | .integer n => Text.ofInt n
  | .text t => t
  | .symbol _ description => symbolText description
  | .function _ | .object _ => []

end Value

namespace Answer

/-- The text that an answer is. -/
def toText : Answer → Except Fault Text
  | .throws => .error .thrown
  | .object | .symbol => .error .noText
  | .text t => .ok t

/-- Whether an answer is a text. -/
def isText : Answer → Bool
  | .text _ => true
  | .throws | .object | .symbol => false

/-- Every answer but a text fails. -/
theorem toText_error_iff {a : Answer} : (∃ f, a.toText = .error f) ↔ a.isText = false := by
  cases a <;> simp [toText, isText]

end Answer

/-- The text of a value within another text, where a symbol has none. -/
def Value.textWithin (text : Ref → Except Fault Text) : Value → Except Fault Text
  | .symbol .. => .error .noText
  | .function f => f.text.toText
  | .object r => text r
  | v => .ok v.leafText

/-- The message about what JSON cannot hold, with `text` for the objects that name a class. -/
def Unencodable.message (text : Ref → Except Fault Text) : Unencodable → Except Fault Text
  | .number x => .ok (lacking x.toText)
  | .ofType typeName => .ok (lacking (units typeName))
  | .mapKey typeName =>
    .ok (units "map key of type " ++ units typeName ++ units " is not a string")
  | .foreign className =>
    (className.textWithin text).map fun t => lacking (units "instance of " ++ t)
  | .classless => .error .noText
  | .cycle => .ok (units "cyclic reference")
where
  /-- The message about something of which JSON has none. -/
  lacking (what : Text) : Text := what ++ units " is not representable in JSON"

/-- The error that an obstacle is. -/
def Obstacle.explain (text : Ref → Except Fault Text) (o : Obstacle) : Except Fault EncodeError :=
  (o.cause.message text).map fun message => ⟨o.path, message⟩

/-- The text that is left to a member `valueOf`. What is inherited under that name gives none. -/
def valueOfText : Option Value → Except Fault Text
  | some (.function f) => f.answer.toText
  | _ => .error .noText

/-- The text of an object with named members. It calls its member `toString` and, where that is no
function or answers an object, its member `valueOf`; one that inherits a `toString` shows its
class. -/
def membersText (inherits : Bool) (members : Entries Text Value) : Except Fault Text :=
  match members.get? (units "toString") with
  | some (.function f) =>
    match f.answer with
    | .object => valueOfText (members.get? (units "valueOf"))
    | answer => answer.toText
  | some _ => valueOfText (members.get? (units "valueOf"))
  | none =>
    if inherits then .ok (units "[object Object]")
    else valueOfText (members.get? (units "valueOf"))

namespace Store

/-- The texts of items, with `text` for the objects among them. -/
def itemTexts (text : Ref → Except Fault Text) : List Value → Except Fault (List Text)
  | [] => .ok []
  | v :: rest => do
    let t ← if v.isNullish then .ok [] else v.textWithin text
    let ts ← itemTexts text rest
    return t :: ts

/-- The text of the object at a place while the arrays `joining` are being joined and, since the
innermost of them began, the adapters `showing` are being shown. An adapter met again among the
latter would show itself forever. -/
def objectText (s : Store) (joining showing : List Ref) (r : Ref) : Except Fault Text :=
  match h : s.get? r with
  | none => .ok (units "undefined")
  | some o =>
    match o with
    | .array slots =>
      if hr : r ∈ joining then .ok []
      else
        have := unvisited_cons_lt (mem_refs_of_get? h) hr
        (itemTexts (objectText s (r :: joining) []) (slotItems slots)).map
          (List.intercalate (units ","))
    | .adapter a =>
      match s.encode (.object a.backing) with
      | .ok j => .ok (j.write 0)
      | .error obstacle =>
        if hr : r ∈ showing then .error .endless
        else
          have := unvisited_cons_lt (mem_refs_of_get? h) hr
          (obstacle.explain (objectText s joining (r :: showing))).map EncodeError.note
    | .record bare members => membersText (!bare) members
    | .derived members => membersText true members
    | .map _ => .ok (units "[object Map]")
    | .date date => .ok date.localText
    | .foreign _ manner => manner.answer.toText
    | _ => .ok (units "[object Object]")
termination_by (unvisited s.refs joining, unvisited s.refs showing)

/-- The display text of a value. -/
def display (s : Store) : Value → Except Fault Text
  | .object r => s.objectText [] [] r
  | .function f => f.text.toText
  | v => .ok v.leafText

/-- Why a value has no JSON form, given the obstacle in it. -/
def explain (s : Store) (o : Obstacle) : Except Fault EncodeError :=
  o.explain (s.objectText [] [])

end Store

end TypedReads
