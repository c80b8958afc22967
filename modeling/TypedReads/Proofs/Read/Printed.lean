import TypedReads.Proofs.Adapter.NumberTexts
import TypedReads.Proofs.Read.Range
import TypedReads.Proofs.Report

/-!
# Printed reads read back

What a read prints, as a text or as a line of JSON, is read at the same target as what was read, but for
the sign of zero (`printed_reads_back`). The values of a target are those of `Coerced.InRange`.

A number is printed in one of three ways: as a number, as the digits of an integer of 64 bits, or by name
if it is not finite. Back come three forms as well, since the reader keeps a large integer exact: the number
itself, an integer, or a text to parse. Integers meet in `Coerced.Fits.exists_int`, and floating numbers in
the number that stands for them (`FloatingKind.shown`), which widens to the number itself whichever way it
comes (`FloatingKind.widen_shown`).
-/

namespace TypedReads

/-- The values of a target: an integer in the range of its kind, a number of 32 bits, any double, a single
code unit, any text, and a truth value. -/
inductive Coerced.InRange : Target → Coerced → Prop
  | integral {kind : IntegralKind} {c : Coerced} (h : Coerced.Fits kind c) : InRange kind.target c
  | float {x : Double} (h : x.toSingle = x) : InRange .float (.number x)
  | double (x : Double) : InRange .double (.number x)
  | char {t : Text} (h : t.length = 1) : InRange .char (.text t)
  | string (t : Text) : InRange .string (.text t)
  | boolean (b : Bool) : InRange .boolean (.bool b)

/-- A value is read at a target, in either mode, as what is given, but for the sign of zero. -/
def Store.ReadsAs (s : Store) (target : Target) (v : Value) (c : Coerced) : Prop :=
  ∀ mode, ∃ c', s.read target v mode = .ok (some c') ∧ c'.unsigned = c.unsigned

/-- What is read as a value is read as any other that differs in the sign of zero only. -/
theorem Store.ReadsAs.congr {s : Store} {target : Target} {v : Value} {c c' : Coerced}
    (h : s.ReadsAs target v c) (hsame : c.unsigned = c'.unsigned) : s.ReadsAs target v c' := by
  intro mode
  obtain ⟨answer, hread, hanswer⟩ := h mode
  exact ⟨answer, hread, hanswer.trans hsame⟩

section Integers

variable {kind : IntegralKind} {n : ℤ}

/-- The digits of an integer are read as the integer by any kind that holds it. -/
theorem integral?_ofInt (h : kind.holds n = true) : (Text.ofInt n).integral? kind = some n := by
  obtain ⟨ds, ⟨hne, hten, -⟩, hvalue, ht⟩ := decimalText_ofInt n
  obtain ⟨d, ds, rfl⟩ := List.exists_cons_of_ne_nil hne
  have hsign : (Text.ofInt n).scanSign = (decide (n < 0), digitText (d :: ds)) := by
    rw [ht, digitText_cons]
    exact (signText_minusText _).scanSign (hten d List.mem_cons_self)
  have hnatural : (digitText (d :: ds)).natural? = some n.natAbs :=
    natural?_eq_some_iff.mpr ⟨_, hne, hten, rfl, hvalue.symm⟩
  have hsigned : (if decide (n < 0) = true then -(n.natAbs : ℤ) else n.natAbs) = n := by
    simp only [decide_eq_true_eq]
    omega
  unfold Text.integral?
  rw [hsign]
  dsimp only
  rw [hnatural]
  change Option.filter kind.holds (some (if decide (n < 0) = true then -(n.natAbs : ℤ) else n.natAbs)) = _
  rw [hsigned, Option.filter_some, if_pos h]

/-- A value that fits an integral kind is an integer that the kind holds. It is shown by its digits, and in
JSON as well or as the number that it is. -/
theorem Coerced.Fits.exists_int {c : Coerced} (h : Fits kind c) :
    ∃ n, kind.holds n = true ∧ (kind.answer n).unsigned = c.unsigned ∧
      c.toText kind.target = Text.ofInt n ∧
      (c.toJson kind.target = .text (Text.ofInt n) ∨
        ∃ x : Double, c.toJson kind.target = .number x.withoutNegativeZero ∧ x.toInt? = some n ∧
          n.natAbs < 2 ^ 53) := by
  cases h with
  | @integer n hlow hhigh =>
    exact ⟨n, (IntegralKind.holds_iff _ n).mpr ⟨hlow, hhigh⟩, rfl, rfl, .inl rfl⟩
  | @number _ x n hkind hx hlow hhigh =>
    have hholds := (kind.holds_iff n).mpr ⟨hlow, hhigh⟩
    have hsmall := IntegralKind.natAbs_lt_of_holds hkind hholds
    have htarget : kind.target ≠ .float := by cases kind <;> decide
    have htext : x.toText = Text.ofInt n :=
      Double.toText_of_safeInt? (Store.safeInt?_of_toInt? hx ((Double.safe_iff n).mpr hsmall))
    refine ⟨n, hholds, ?_, (if_neg htarget).trans htext, .inr ⟨x, ?_, hx, hsmall⟩⟩
    · rw [IntegralKind.answer_eq_number hkind]
      exact congrArg Coerced.number (Double.withoutNegativeZero_ofInt hx hsmall.le)
    · unfold toJson
      dsimp only
      rw [if_pos (Double.isFinite_of_toInt? hx), if_neg htarget]

end Integers

/-- The text of a number is read as the number, or as the zero without a sign. -/
theorem Double.floating?_toText' (x : Double) : x.toText.floating? = some x.withoutNegativeZero := by
  by_cases hx : x.isFinite = true
  · exact Double.floating?_toText hx
  · cases x with
    | finite negative rank => exact absurd rfl hx
    | nan => decide
    | infinite negative => cases negative <;> decide

namespace Store

variable {s : Store} {v : Value} {bound : Ref}

section Forms

/-- Digits are read as the integer they spell. -/
theorem readsAs_digits {kind : IntegralKind} {n : ℤ} (h : kind.holds n = true) (s : Store) :
    s.ReadsAs kind.target (.text (Text.ofInt n)) (kind.answer n) := by
  refine fun mode => ⟨kind.answer n, ?_, rfl⟩
  have hclass : Scalar.classify s (.text (Text.ofInt n)) = .text (Text.ofInt n) := rfl
  rw [read_target, readIntegral, hclass, Scalar.toIntegral, integral?_ofInt h]
  rfl

/-- What is widened from the number shown for a number is read as that number. -/
theorem readsAs_widen {kind : FloatingKind} {x : Double} (hx : kind = .float → x.toSingle = x)
    (h : ∀ mode, ∃ y, y.withoutNegativeZero = (kind.shown x).withoutNegativeZero ∧
      (Scalar.classify s v).toFloating kind mode = Scalar.widen y kind mode) :
    s.ReadsAs kind.target v (.number x) := by
  intro mode
  obtain ⟨y, hy, hread⟩ := h mode
  obtain ⟨z, hz, hsame⟩ := FloatingKind.widen_shown hx hy mode
  refine ⟨.number z, ?_, congrArg Coerced.number hsame⟩
  rw [read_floating, readFloating, hread, hz]
  rfl

/-- The text of the number shown for a number is read as that number. -/
theorem readsAs_toText {kind : FloatingKind} {x : Double} (hx : kind = .float → x.toSingle = x)
    (s : Store) : s.ReadsAs kind.target (.text (kind.shown x).toText) (.number x) := by
  refine readsAs_widen hx fun mode =>
    ⟨_, Double.withoutNegativeZero_withoutNegativeZero (kind.shown x), ?_⟩
  have hclass : Scalar.classify s (.text (kind.shown x).toText) = .text (kind.shown x).toText := rfl
  rw [hclass, Scalar.toFloating, Double.floating?_toText', Option.bind_some]

/-- What the number shown for a number is reread as is read as that number. -/
theorem readsAs_canonical {kind : FloatingKind} {x : Double} (hx : kind = .float → x.toSingle = x)
    (hv : s.Represents bound v (kind.shown x).canonical) : s.ReadsAs kind.target v (.number x) :=
  readsAs_widen hx fun mode => toFloating_canonical hv kind mode

/-- A number of a floating kind in JSON, finite or not. -/
theorem readsAs_number {kind : FloatingKind} {x : Double} (hx : kind = .float → x.toSingle = x)
    (hv : s.Represents bound v ((Coerced.number x).toJson kind.target).reread) :
    s.ReadsAs kind.target v (.number x) := by
  have hshown : (if kind.target = .float then x.shortestSingle else x) = kind.shown x := by
    cases kind <;> rfl
  unfold Coerced.toJson at hv
  dsimp only at hv
  rw [hshown] at hv
  split_ifs at hv with hfinite
  · rw [Json.reread, Double.canonical_withoutNegativeZero] at hv
    exact readsAs_canonical hx hv
  · -- What is not finite is shown by name, and its name is its text.
    cases hv
    have hsame : (kind.shown x).toText = x.toText := by
      cases kind with
      | double => rfl
      | float => exact congrArg Double.toText (Double.shortestSingle_of_not_finite hfinite)
    rw [← hsame]
    exact readsAs_toText hx s

/-- A text of one unit is read as a character. -/
theorem readsAs_char {t : Text} (h : t.length = 1) (s : Store) : s.ReadsAs .char (.text t) (.text t) := by
  refine fun mode => ⟨.text t, ?_, rfl⟩
  have hchar : (Scalar.text t).toChar = some t := if_pos h
  exact congrArg (fun t => Except.ok (Option.map Coerced.text t)) hchar

/-- A text is read as itself. -/
theorem readsAs_string (t : Text) (s : Store) : s.ReadsAs .string (.text t) (.text t) :=
  fun _ => ⟨.text t, rfl, rfl⟩

end Forms

/-- The text of a value of a target is read as the value. -/
theorem readsAs_text {target : Target} {c : Coerced} (hc : c.InRange target) (s : Store) :
    s.ReadsAs target (.text (c.toText target)) c := by
  cases hc with
  | integral h =>
    obtain ⟨n, hn, hsame, htext, -⟩ := h.exists_int
    rw [htext]
    exact (readsAs_digits hn s).congr hsame
  | float h => exact @readsAs_toText .float _ (fun _ => h) s
  | double x => exact @readsAs_toText .double x nofun s
  | char h => exact readsAs_char h s
  | string t => exact readsAs_string t s
  | boolean b => exact fun mode => ⟨.bool b, by cases b <;> rfl, rfl⟩

/-- What the JSON value of a value of a target is reread as is read as the value. -/
theorem readsAs_json {target : Target} {c : Coerced} (hc : c.InRange target)
    (hv : s.Represents bound v (c.toJson target).reread) : s.ReadsAs target v c := by
  cases hc with
  | integral h =>
    obtain ⟨n, hn, hsame, -, hjson | ⟨x, hjson, hx, hsmall⟩⟩ := h.exists_int
    · -- A long is a text in JSON.
      rw [hjson] at hv
      cases hv
      exact (readsAs_digits hn s).congr hsame
    · rw [hjson, Json.reread, Double.canonical_withoutNegativeZero] at hv
      exact fun mode => ⟨_, read_whole hv (whole_canonical hx hsmall) hn mode, hsame⟩
  | float h => exact @readsAs_number _ _ _ .float _ (fun _ => h) hv
  | double x => exact @readsAs_number _ _ _ .double x nofun hv
  | char h =>
    cases hv
    exact readsAs_char h s
  | string t =>
    cases hv
    exact readsAs_string t s
  | boolean b =>
    cases hv
    exact fun mode => ⟨.bool b, rfl, rfl⟩

/-- What is shown in one piece is loaded without a new object. -/
theorem load_shown {value : Option Coerced} {j : Json} (h : Shown value j) (s : Store) :
    (s.load j.reread).2 = s := by
  cases h with
  | @number c x h =>
    rw [Json.reread, Double.canonical]
    split
    · split_ifs <;> rfl
    · rfl
  | _ => rfl

end Store

section Line

variable (target : Target) (value : Option Coerced)

/-- The line of a single read decodes to its two members. -/
theorem entries_readLine :
    Document.entries (readLine target value) =
      .ok [(units "type", .text (units target.name)), (units "value", (readJson target value).reread)] := by
  have hshown := readJson_shown target value
  have hnormal : Json.NormalMembers
      [(units "type", .text (units target.name)), (units "value", readJson target value)] :=
    ⟨trivial, hshown.normal, trivial⟩
  have hfinite : Json.FiniteMembers
      [(units "type", .text (units target.name)), (units "value", readJson target value)] :=
    ⟨trivial, hshown.finite, trivial⟩
  have hread := Json.normalizeMembers_of_normal (Json.rereadMembers_normal hnormal)
  refine (Document.entries_write hfinite 0).trans ?_
  rw [hread]
  rfl

/-- The members of the line are the name of the target and a value, and neither is a new object. -/
theorem loadMembers_readLine (s : Store) :
    ∃ members v, Document.entries (readLine target value) = .ok members ∧
      s.loadMembers members =
        ([(units "type", .text (units target.name)), (units "value", v)], s) ∧
      s.Represents s.size v (readJson target value).reread := by
  have hload := Store.load_shown (readJson_shown target value) s
  obtain ⟨-, -, hrep⟩ := s.load_represents (readJson target value).reread
  rw [hload] at hrep
  refine ⟨_, _, entries_readLine target value, ?_, hrep⟩
  simp only [Store.loadMembers, Store.load, hload]

end Line

/-- What a read of a target prints is read at the target as the value that was read, in either mode and
but for the sign of zero. That holds of its text, and of the line of JSON: it decodes to the name of the
target and a value, which is read as the value that was read. An absent value is printed in JSON as null,
and null is absent at every target. -/
theorem printed_reads_back (s : Store) (target : Target) :
    (∀ c : Coerced, c.InRange target →
      s.ReadsAs target (.text (readText target (some c))) c ∧
      ∃ members v, Document.entries (readLine target (some c)) = .ok members ∧
        s.loadMembers members =
          ([(units "type", .text (units target.name)), (units "value", v)], s) ∧
        s.ReadsAs target v c) ∧
    ∃ members, Document.entries (readLine target none) = .ok members ∧
      s.loadMembers members =
        ([(units "type", .text (units target.name)), (units "value", .null)], s) ∧
      ∀ target' mode, s.read target' .null mode = .ok none := by
  constructor
  · intro c hc
    obtain ⟨members, v, hentries, hload, hrep⟩ := loadMembers_readLine target (some c) s
    exact ⟨Store.readsAs_text hc s, members, v, hentries, hload, Store.readsAs_json hc hrep⟩
  · obtain ⟨members, v, hentries, hload, hrep⟩ := loadMembers_readLine target none s
    cases hrep
    exact ⟨members, hentries, hload, fun target' mode => by cases target' <;> rfl⟩

/-- The least integer of 64 bits, which JSON shows as a text, and the infinity below all numbers. -/
theorem printed_reads_back_at_edges :
    Coerced.InRange .long (.integer (-2 ^ 63)) ∧ Coerced.InRange .float (.number (.infinite true)) ∧
    (∃ members v, Document.entries (readLine .long (some (.integer (-2 ^ 63)))) = .ok members ∧
      Store.empty.loadMembers members =
        ([(units "type", .text (units "long")), (units "value", v)], Store.empty) ∧
      Store.empty.ReadsAs .long v (.integer (-2 ^ 63))) ∧
    Store.empty.ReadsAs .float (.text (units "-Infinity")) (.number (.infinite true)) := by
  have hleast : Coerced.InRange .long (.integer (-2 ^ 63)) :=
    @Coerced.InRange.integral .long _ (.integer (by decide) (by decide))
  have hbelow : Coerced.InRange .float (.number (.infinite true)) := .float rfl
  obtain ⟨hread, -⟩ := printed_reads_back Store.empty .long
  obtain ⟨hread', -⟩ := printed_reads_back Store.empty .float
  exact ⟨hleast, hbelow, (hread _ hleast).2, (hread' _ hbelow).1⟩

end TypedReads
