import TypedReads.Json.Reader
import TypedReads.Proofs.Text.Digits

/-!
# The grammar of JSON texts

Which texts spell which values, with no reference to how a text is scanned. A `Tree` is a JSON value
that keeps its numerals as they are written, and `ValueText` relates a text without blanks at its
ends to the tree it spells. `DocumentText` allows blanks around it. `Tree.toJson` is the value of a
tree.
-/

namespace TypedReads

/-- A JSON value with its numerals as they are written. -/
inductive Tree where
  | null
  | bool (b : Bool)
  | number (n : Numeral)
  | text (t : Text)
  | array (items : List Tree)
  | object (members : List (Text × Tree))

namespace Tree

mutual

/-- The value of a tree. -/
def toJson : Tree → Json
  | .null => .null
  | .bool b => .bool b
  | .number n => n.toJson
  | .text t => .text t
  | .array items => .array (toJsonItems items)
  | .object members => .object (toJsonMembers members)

/-- The values of items. -/
def toJsonItems : List Tree → List Json
  | [] => []
  | tree :: rest => tree.toJson :: toJsonItems rest

/-- The values of members under their keys. -/
def toJsonMembers : List (Text × Tree) → List (Text × Json)
  | [] => []
  | (key, tree) :: rest => (key, tree.toJson) :: toJsonMembers rest

end

/-- The members of a tree keep their keys. -/
theorem keys_toJsonMembers (members : List (Text × Tree)) :
    Entries.keys (toJsonMembers members) = Entries.keys members := by
  induction members with
  | nil => rfl
  | cons e rest ih => exact congrArg (e.1 :: ·) ih

end Tree

/-- A text of units that separate tokens. -/
def Blank (t : Text) : Prop := ∀ u ∈ t, CodeUnit.isSpace u = true

/-- Nothing at all is blank. -/
theorem blank_nil : Blank [] := fun _ h => absurd h List.not_mem_nil

/-- The texts of one unit inside a string: the unit itself, a letter that stands for it, or its four
hexadecimal digits. -/
inductive UnitText : Text → CodeUnit → Prop
  | raw {u : CodeUnit} (hquote : u ≠ unit '"') (hslash : u ≠ unit '\\') (hcontrol : ¬ u < 0x20) :
      UnitText [u] u
  | letter {c u : CodeUnit} (h : CodeUnit.unescape? c = some u) : UnitText [unit '\\', c] u
  | hex {a b c d : CodeUnit} {i j k l : ℕ} (ha : CodeUnit.hexDigit? a = some i)
      (hb : CodeUnit.hexDigit? b = some j) (hc : CodeUnit.hexDigit? c = some k)
      (hd : CodeUnit.hexDigit? d = some l) :
      UnitText [unit '\\', unit 'u', a, b, c, d]
        (16 * (16 * (16 * (16 * 0 + i) + j) + k) + l).toUInt16

/-- The texts of a string between its quotes. -/
inductive StringText : Text → Text → Prop
  | nil : StringText [] []
  | cons {t rest value : Text} {u : CodeUnit} (hunit : UnitText t u)
      (hrest : StringText rest value) : StringText (t ++ rest) (u :: value)

/-- A text between quotes. -/
def quoted (t : Text) : Text := unit '"' :: t ++ [unit '"']

/-- The digits of a numeral in front of the point: a leading zero stands alone. -/
def WholeDigits (ds : List ℕ) : Prop :=
  ds ≠ [] ∧ (∀ d ∈ ds, d < 10) ∧ (ds.head? = some 0 → ds = [0])

/-- The texts of a fraction: none, or a point and digits. -/
inductive FractionText : Text → Option (List ℕ) → Prop
  | absent : FractionText [] none
  | digits {ds : List ℕ} (hne : ds ≠ []) (hds : ∀ d ∈ ds, d < 10) :
      FractionText (unit '.' :: digitText ds) (some ds)

/-- The texts of a sign, true for minus. -/
inductive SignText : Text → Bool → Prop
  | absent : SignText [] false
  | plus : SignText [unit '+'] false
  | minus : SignText [unit '-'] true

/-- The texts of an exponent: none, or `e` in either case, a sign or none, and digits. -/
inductive ExponentText : Text → Option ℤ → Prop
  | absent : ExponentText [] none
  | power {e : CodeUnit} {sign : Text} {negative : Bool} {ds : List ℕ}
      (he : e = unit 'e' ∨ e = unit 'E') (hsign : SignText sign negative) (hne : ds ≠ [])
      (hds : ∀ d ∈ ds, d < 10) :
      ExponentText (e :: sign ++ digitText ds)
        (some (if negative then -(ofDigits ds : ℤ) else ofDigits ds))

/-- The minus sign of a negative numeral. -/
def minusText (negative : Bool) : Text := if negative then [unit '-'] else []

/-- The texts of a numeral. -/
inductive NumeralText : Text → Numeral → Prop
  | mk {negative : Bool} {whole : List ℕ} {fractionText exponentText : Text}
      {fraction : Option (List ℕ)} {exponent : Option ℤ} (hwhole : WholeDigits whole)
      (hfraction : FractionText fractionText fraction)
      (hexponent : ExponentText exponentText exponent) :
      NumeralText (minusText negative ++ digitText whole ++ fractionText ++ exponentText)
        ⟨negative, whole, fraction, exponent⟩

mutual

/-- The texts of a value, from its first unit to its last. -/
inductive ValueText : Text → Tree → Prop
  | null : ValueText (units "null") .null
  | true : ValueText (units "true") (.bool .true)
  | false : ValueText (units "false") (.bool .false)
  | number {t : Text} {n : Numeral} (h : NumeralText t n) : ValueText t (.number n)
  | text {t value : Text} (h : StringText t value) : ValueText (quoted t) (.text value)
  | emptyArray {blank : Text} (h : Blank blank) :
      ValueText (unit '[' :: blank ++ [unit ']']) (.array [])
  | array {t : Text} {items : List Tree} (h : ItemsText t items) :
      ValueText (unit '[' :: t ++ [unit ']']) (.array items)
  | emptyObject {blank : Text} (h : Blank blank) :
      ValueText (unit '\x7b' :: blank ++ [unit '\x7d']) (.object [])
  | object {t : Text} {members : List (Text × Tree)} (h : MembersText t members) :
      ValueText (unit '\x7b' :: t ++ [unit '\x7d']) (.object members)

/-- The texts of a value with blanks around it. -/
inductive ElementText : Text → Tree → Prop
  | mk {before t after : Text} {tree : Tree} (hbefore : Blank before) (h : ValueText t tree)
      (hafter : Blank after) : ElementText (before ++ t ++ after) tree

/-- The texts of one or more items, with commas between them. -/
inductive ItemsText : Text → List Tree → Prop
  | last {t : Text} {tree : Tree} (h : ElementText t tree) : ItemsText t [tree]
  | cons {t rest : Text} {tree : Tree} {items : List Tree} (h : ElementText t tree)
      (hrest : ItemsText rest items) : ItemsText (t ++ unit ',' :: rest) (tree :: items)

/-- The texts of a key with its value. -/
inductive MemberText : Text → Text × Tree → Prop
  | mk {before key after t value : Text} {tree : Tree} (hbefore : Blank before)
      (hkey : StringText key value) (hafter : Blank after) (h : ElementText t tree) :
      MemberText (before ++ quoted key ++ after ++ unit ':' :: t) (value, tree)

/-- The texts of one or more members, with commas between them. -/
inductive MembersText : Text → List (Text × Tree) → Prop
  | last {t : Text} {member : Text × Tree} (h : MemberText t member) : MembersText t [member]
  | cons {t rest : Text} {member : Text × Tree} {members : List (Text × Tree)}
      (h : MemberText t member) (hrest : MembersText rest members) :
      MembersText (t ++ unit ',' :: rest) (member :: members)

end

/-- The texts of a document with any value at its root. -/
def DocumentText (t : Text) (tree : Tree) : Prop := ElementText t tree

/-- An object of one member, written without blanks. -/
theorem DocumentText.single {key t value : Text} {tree : Tree} (hkey : StringText key value)
    (h : ValueText t tree) :
    DocumentText (unit '\x7b' :: (quoted key ++ unit ':' :: t) ++ [unit '\x7d'])
      (.object [(value, tree)]) := by
  have helement := ElementText.mk blank_nil h blank_nil
  have hmember := MemberText.mk blank_nil hkey blank_nil helement
  have hobject := ElementText.mk blank_nil (.object (.last hmember)) blank_nil
  simp only [List.nil_append, List.append_nil] at hobject
  exact hobject

end TypedReads
