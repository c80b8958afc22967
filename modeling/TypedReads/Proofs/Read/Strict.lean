import TypedReads.Proofs.Adapter.Opening
import TypedReads.Proofs.Json.Acceptance
import TypedReads.Proofs.Json.Normal
import TypedReads.Proofs.Number.Clamp
import TypedReads.Proofs.Number.Decimal

/-!
# Strict integral reads

What a strict read of an integral target makes of a number, of an integer of any size, and of an
integer literal of a document. A finite number is read exactly or not at all, and so is an integer
of at most 64 bits. An integer of more bits passes through the nearest double before it is narrowed,
so that the 1024 integers below `-2 ^ 63` that round to it are read as `-2 ^ 63`
(`IntegralKind.strictRead`), and nothing else goes wrong.
-/

namespace TypedReads

namespace IntegralKind

/-- The target that asks for a kind. -/
def target : IntegralKind → Target
  | byte => .byte
  | short => .short
  | int => .integer
  | long => .long

/-- An integer as the answer to a read of a kind. -/
def answer : IntegralKind → ℤ → Coerced
  | long, n => .integer n
  | _, n => .number (Double.ofInt n)

/-- An integer of a narrower kind is answered as a number. -/
theorem answer_eq_number {kind : IntegralKind} (hkind : kind ≠ .long) (n : ℤ) :
    kind.answer n = .number (Double.ofInt n) := by
  cases kind with
  | long => exact absurd rfl hkind
  | _ => rfl

/-- What a strict read of a kind makes of an integer. -/
def strictRead (kind : IntegralKind) (n : ℤ) : Option ℤ :=
  if kind = .long ∧ -2 ^ 63 - 1024 ≤ n ∧ n < -2 ^ 63 then some (-2 ^ 63) else kind.exact n

/-- Every kind is within 64 bits. -/
theorem long_holds_of_holds {kind : IntegralKind} {n : ℤ} (h : kind.holds n = true) :
    long.holds n = true :=
  holds_of_width_le (by cases kind <;> decide) h

/-- An integer of 64 bits is read exactly. -/
theorem strictRead_of_holds {n : ℤ} (h : long.holds n = true) (kind : IntegralKind) :
    kind.strictRead n = kind.exact n := by
  rw [holds_iff] at h
  simp only [least, greatest, width] at h
  exact if_neg fun hcon => by omega

/-- An integer of more bits is read only if it rounds to `-2 ^ 63` from below. -/
theorem strictRead_of_not_holds {n : ℤ} (h : long.holds n = false) (kind : IntegralKind) :
    kind.strictRead n = truncateFloating (Double.ofInt n) kind .strict := by
  have hexact : kind.exact n = none := by
    rw [exact_eq, if_neg fun hk => by rw [long_holds_of_holds hk] at h; cases h]
  have hout : n < 0 ↔ n < -2 ^ 63 := by
    rw [← Bool.not_eq_true, holds_iff] at h
    simp only [least, greatest, width] at h
    omega
  rw [truncateFloating_ofInt_strict h, strictRead, hexact]
  simp only [hout]

/-- The read fails to be exact for those integers alone. -/
theorem strictRead_eq_exact_iff (kind : IntegralKind) (n : ℤ) :
    kind.strictRead n = kind.exact n ↔
      ¬ (kind = .long ∧ -2 ^ 63 - 1024 ≤ n ∧ n < -2 ^ 63) := by
  by_cases h : kind = .long ∧ -2 ^ 63 - 1024 ≤ n ∧ n < -2 ^ 63
  · have hnone : kind.exact n = none := by
      obtain ⟨rfl, -, hhigh⟩ := h
      refine if_neg fun hcon => ?_
      simp only [least, width] at hcon
      omega
    rw [strictRead, if_pos h, hnone]
    exact iff_of_false (Option.some_ne_none _) (not_not_intro h)
  · rw [strictRead, if_neg h]
    exact iff_of_true rfl h

end IntegralKind

/-- The target that asks for a floating kind. -/
def FloatingKind.target : FloatingKind → Target
  | .float => .float
  | .double => .double

/-- An integer in the range of its kind is narrowed to any kind. Asked for its own, it is not narrowed, but
then narrowing would not change it. -/
theorem Scalar.toIntegral_integral {kind' : IntegralKind} {n : ℤ} (h : kind'.holds n = true)
    (kind : IntegralKind) (mode : Narrowing) :
    (Scalar.integral kind' n).toIntegral kind mode = narrowIntegral n kind mode := by
  unfold toIntegral
  dsimp only
  split_ifs with hkind
  · subst hkind
    exact (narrowIntegral_of_holds h mode).symm
  · rfl

namespace Store

/-- A read of an integral target. -/
theorem read_target (s : Store) (kind : IntegralKind) (v : Value) (mode : Narrowing) :
    s.read kind.target v mode = .ok ((s.readIntegral kind v mode).map kind.answer) := by
  cases kind <;> rfl

/-- A read of a floating target. -/
theorem read_floating (s : Store) (kind : FloatingKind) (v : Value) (mode : Narrowing) :
    s.read kind.target v mode = .ok ((s.readFloating kind v mode).map .number) := by
  cases kind <;> rfl

/-- A whole number that is safe counts as an integer. -/
theorem safeInt?_of_toInt? {x : Double} {n : ℤ} (hx : x.toInt? = some n)
    (hsafe : -Double.safeBound ≤ n ∧ n ≤ Double.safeBound) : x.safeInt? = some n := by
  unfold Double.safeInt?
  rw [hx, Option.filter_some, decide_eq_true hsafe, if_pos rfl]

/-- A number that counts as an integer is that integer. -/
theorem toInt?_of_safeInt? {x : Double} {n : ℤ} (h : x.safeInt? = some n) :
    x.toInt? = some n ∧ -Double.safeBound ≤ n ∧ n ≤ Double.safeBound := by
  unfold Double.safeInt? at h
  rw [Option.filter_eq_some_iff] at h
  exact ⟨h.1, of_decide_eq_true h.2⟩

/-- A number is narrowed by dropping its fraction, whether it counts as an integer or not. -/
theorem readIntegral_number_strict (s : Store) (kind : IntegralKind) (x : Double) :
    s.readIntegral kind (.number x) .strict = truncateFloating x kind .strict := by
  unfold readIntegral Scalar.classify Scalar.ofNumber
  dsimp only
  cases hsafe : x.safeInt? with
  | none => rfl
  | some n =>
    obtain ⟨hint, hlow, hhigh⟩ := toInt?_of_safeInt? hsafe
    have hholds : (if IntegralKind.int.holds n then IntegralKind.int else .long).holds n = true := by
      split_ifs with hint
      · exact hint
      · unfold Double.safeBound at hlow hhigh
        exact (IntegralKind.holds_long_iff (by omega)).mpr (by omega)
    dsimp only
    rw [truncateFloating_strict_of_toInt? hint, Scalar.toIntegral_integral hholds,
      narrowIntegral_strict]

/-- A finite number is read exactly. -/
theorem readIntegral_finite_strict (s : Store) (kind : IntegralKind) {x : Double}
    (h : x.isFinite = true) :
    s.readIntegral kind (.number x) .strict = kind.exact (truncated x.value) := by
  rw [readIntegral_number_strict, truncateFloating_strict h]

/-- An integer of any size is read as it is, or through the nearest double. -/
theorem readIntegral_integer_strict (s : Store) (kind : IntegralKind) (n : ℤ) :
    s.readIntegral kind (.integer n) .strict = kind.strictRead n := by
  unfold readIntegral Scalar.classify Scalar.ofInteger
  dsimp only
  cases h : IntegralKind.long.holds n with
  | true =>
    rw [if_pos rfl, IntegralKind.strictRead_of_holds h, Scalar.toIntegral_integral h,
      narrowIntegral_strict]
  | false =>
    rw [if_neg Bool.false_ne_true, IntegralKind.strictRead_of_not_holds h]
    rfl

end Store

namespace Numeral

/-- The value of a numeral is normal. -/
theorem normalize_toJson (n : Numeral) : n.toJson.normalize = n.toJson := by
  unfold toJson
  split <;> (try split) <;> rfl

/-- An integer literal is read, however it is stored. -/
theorem readIntegral_strict {n : Numeral} {i : ℤ} (hi : n.toInt? = some i) (s : Store)
    (kind : IntegralKind) {bound : Ref} {v : Value} (hv : s.Represents bound v n.toJson) :
    s.readIntegral kind v .strict = kind.strictRead i := by
  unfold toJson at hv
  rw [hi] at hv
  dsimp only at hv
  split_ifs at hv with hstored
  · -- A double stands for it: exactly if it is safe, and rounded if it is past 64 bits.
    cases hv
    rw [Store.readIntegral_number_strict]
    rcases hstored with hsafe | hout
    · unfold Double.safeBound at hsafe
      have hint := toInt?_toDouble hi (by omega)
      have hlong := (IntegralKind.holds_long_iff (by omega)).mpr (show i.natAbs < 2 ^ 63 by omega)
      rw [IntegralKind.strictRead_of_holds hlong, truncateFloating_strict_of_toInt? hint]
    · have hlong : IntegralKind.long.holds i = false := by simpa using hout
      have hzero : i ≠ 0 := by
        rintro rfl
        exact hout (by decide)
      rw [IntegralKind.strictRead_of_not_holds hlong, toDouble_eq_ofInt hi hzero]
  -- Between the two it is stored as the integer.
  · cases hv
    exact s.readIntegral_integer_strict kind i

end Numeral

namespace Document

/-- The members of a document spelled by a tree. -/
theorem entries_of_text {t : Text} {members : List (Text × Tree)}
    (h : DocumentText t (.object members)) :
    Document.entries t = .ok (Json.normalizeMembers (Tree.toJsonMembers members)) := by
  unfold Document.entries Document.members
  rw [h.read]
  rfl

/-- The last of the members with one key, once read and normalized. -/
theorem get?_ofPairs_members (before after : List (Text × Tree)) {key : Text} (tree : Tree)
    (hlast : ∀ e ∈ after, e.1 ≠ key) :
    (Entries.ofPairs (Json.normalizeMembers
      (Tree.toJsonMembers (before ++ (key, tree) :: after)))).get? key =
        some tree.toJson.normalize := by
  have happend : ∀ before : List (Text × Tree), ∃ front, Json.normalizeMembers
      (Tree.toJsonMembers (before ++ (key, tree) :: after)) = front ++
        (key, tree.toJson.normalize) :: Json.normalizeMembers (Tree.toJsonMembers after) := by
    intro before
    induction before with
    | nil => exact ⟨[], rfl⟩
    | cons e before ih =>
      obtain ⟨front, hfront⟩ := ih
      refine ⟨(e.1, e.2.toJson.normalize) :: front, ?_⟩
      rw [List.cons_append, List.cons_append, ← hfront]
      rfl
  obtain ⟨front, hfront⟩ := happend before
  rw [hfront]
  -- Members behind it have other keys, so none of them is written over it.
  refine Entries.get?_putAll_last [] front _ ?_
  rw [Json.keys_normalizeMembers, Tree.keys_toJsonMembers]
  intro hmem
  obtain ⟨e, he, hkey⟩ := List.mem_map.mp hmem
  exact hlast e he hkey

end Document

/-- A strict read of an integral target gives the integral part of a finite number where the target
has it, and an integer where `strictRead` does: be it stored, or an integer literal anywhere in a
document, of which the root members are read by their keys. It is exact but for the integers that
round to `-2 ^ 63` from below. -/
theorem read_integral_strict (kind : IntegralKind) :
    (∀ (s : Store) (x : Double), x.isFinite = true →
      s.read kind.target (.number x) .strict =
        .ok ((kind.exact (truncated x.value)).map kind.answer)) ∧
    (∀ (s : Store) (n : ℤ),
      s.read kind.target (.integer n) .strict = .ok ((kind.strictRead n).map kind.answer)) ∧
    (∀ (s : Store) (bound : Ref) (v : Value) (numeral : Numeral) (n : ℤ),
      numeral.toInt? = some n → s.Represents bound v numeral.toJson →
      s.read kind.target v .strict = .ok ((kind.strictRead n).map kind.answer)) ∧
    (∀ (s : Store) (t : Text) (before after : List (Text × Tree)) (key : Text) (numeral : Numeral)
      (n : ℤ), DocumentText t (.object (before ++ (key, .number numeral) :: after)) →
      (∀ e ∈ after, e.1 ≠ key) → numeral.toInt? = some n →
      ∃ r s' a, s.openDocument t .strict = .ok (r, s') ∧ s'.adapter? r = some a ∧
        a.read s' kind.target key = .ok ((kind.strictRead n).map kind.answer)) ∧
    (∀ n, kind.strictRead n = kind.exact n ↔
      ¬ (kind = .long ∧ -2 ^ 63 - 1024 ≤ n ∧ n < -2 ^ 63)) := by
  refine ⟨?_, ?_, ?_, ?_, kind.strictRead_eq_exact_iff⟩
  · intro s x hx
    rw [s.read_target, s.readIntegral_finite_strict kind hx]
  · intro s n
    rw [s.read_target, s.readIntegral_integer_strict]
  · intro s bound v numeral n hn hv
    rw [s.read_target, numeral.readIntegral_strict hn s kind hv]
  · intro s t before after key numeral n ht hlast hn
    obtain ⟨r, s', a, hopen, hadapter, hmode, hopened, -⟩ :=
      s.openDocument_ok (Document.entries_of_text ht) .strict
    refine ⟨r, s', a, hopen, hadapter, ?_⟩
    have hget := Document.get?_ofPairs_members before after (.number numeral) hlast
    obtain ⟨v, hv, hrep⟩ := Adapter.get?_opened hopened hget
    change s'.Represents a.backing v numeral.toJson.normalize at hrep
    rw [numeral.normalize_toJson] at hrep
    rw [Store.read_of_entry hv, hmode, s'.read_target, numeral.readIntegral_strict hn s' kind hrep]

/-- The first integer below 64 bits, written in a document. -/
def edgeDocument : Text := units "\x7b\"a\":-9223372036854775809\x7d"

/-- Its numeral. -/
def edgeNumeral : Numeral :=
  ⟨true, [9, 2, 2, 3, 3, 7, 2, 0, 3, 6, 8, 5, 4, 7, 7, 5, 8, 0, 9], none, none⟩

/-- The grammar has the document. -/
theorem edgeDocument_text :
    DocumentText edgeDocument (.object ([] ++ (units "a", .number edgeNumeral) :: [])) := by
  have hkey : StringText (units "a") (units "a") :=
    .cons (.raw (by decide) (by decide) (by decide)) .nil
  have hwhole : WholeDigits edgeNumeral.whole := ⟨by decide, by decide, by decide⟩
  have hnumeral := @NumeralText.mk true _ _ _ _ _ hwhole .absent .absent
  have htext : unit '\x7b' :: (quoted (units "a") ++ unit ':' ::
      (minusText true ++ digitText edgeNumeral.whole ++ [] ++ [])) ++ [unit '\x7d'] =
        edgeDocument := by decide
  rw [← htext]
  exact .single hkey (.number hnumeral)

/-- A number out of the range of bytes is absent, and the first integer below 64 bits is read as the
least of 64 bits, stored or from a document. -/
theorem read_integral_strict_at_edge :
    (Double.ofInt 300).isFinite = true ∧
    Store.empty.read .byte (.number (Double.ofInt 300)) .strict = .ok none ∧
    Store.empty.read .long (.integer (-2 ^ 63 - 1)) .strict = .ok (some (.integer (-2 ^ 63))) ∧
    (Store.empty.Represents 0 (.number edgeNumeral.toDouble) edgeNumeral.toJson ∧
      Store.empty.read .long (.number edgeNumeral.toDouble) .strict =
        .ok (some (.integer (-2 ^ 63)))) ∧
    ∃ r s' a, Store.empty.openDocument edgeDocument .strict = .ok (r, s') ∧
      s'.adapter? r = some a ∧
      a.read s' .long (units "a") = .ok (some (.integer (-2 ^ 63))) := by
  have hfinite : (Double.ofInt 300).isFinite = true := by decide +kernel
  -- The integral part of the first is out of the range of bytes.
  have hvalue : truncated (Double.ofInt 300).value = 300 := by
    have htrunc := Double.trunc?_eq hfinite
    rw [show (Double.ofInt 300).trunc? = some 300 by decide +kernel] at htrunc
    exact (Option.some.inj htrunc).symm
  have hint : edgeNumeral.toInt? = some (-2 ^ 63 - 1) := by decide +kernel
  have hrep : Store.empty.Represents 0 (.number edgeNumeral.toDouble) edgeNumeral.toJson :=
    .number edgeNumeral.toDouble
  obtain ⟨hbyte, -, -, -, -⟩ := read_integral_strict .byte
  obtain ⟨-, hinteger, hstored, hopened, -⟩ := read_integral_strict .long
  refine ⟨hfinite, ?_, hinteger _ _, ⟨hrep, hstored _ 0 _ _ _ hint hrep⟩, ?_⟩
  · have h := hbyte Store.empty (Double.ofInt 300) hfinite
    rw [hvalue] at h
    exact h
  · exact hopened Store.empty edgeDocument [] [] _ _ _ edgeDocument_text (by simp) hint

end TypedReads
