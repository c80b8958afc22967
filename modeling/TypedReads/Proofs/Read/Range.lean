import TypedReads.Proofs.Number.Clamp
import TypedReads.Proofs.Read.Strict

/-!
# Integral reads fit their type

Whatever is stored, and in either mode, an integral read gives an integer in the range of its target or
nothing (`read_integral_fits`). A read takes an integer of the very kind asked for as it is, without
narrowing it, so this rests on what classifying guarantees: the integer of a scalar is in the range of
the kind that the scalar carries (`Scalar.inRange_classify`), also where a box was made with a number
that its kind cannot hold.

Every other way to an integer ends in a check or in a wrap, but for one: a floating number read as a long
is clamped, to bounds that are compared as doubles, of which the upper one is `2 ^ 63` and no longer in
the range (`Double.holds_saturate`).
-/

namespace TypedReads

/-- A read value that is an integer in the range of a kind: a whole number, or for the widest kind an
integer. -/
inductive Coerced.Fits : IntegralKind → Coerced → Prop
  | number {kind : IntegralKind} {x : Double} {n : ℤ} (hkind : kind ≠ .long) (hx : x.toInt? = some n)
      (hlow : kind.least ≤ n) (hhigh : n ≤ kind.greatest) : Fits kind (.number x)
  | integer {n : ℤ} (hlow : IntegralKind.long.least ≤ n) (hhigh : n ≤ IntegralKind.long.greatest) :
      Fits .long (.integer n)

/-- A scalar whose integer, if it is one, is in the range of the kind it carries. -/
def Scalar.InRange : Scalar → Prop
  | .integral kind n => kind.holds n = true
  | _ => True

section Narrowing

variable {n m : ℤ} {kind : IntegralKind} {mode : Narrowing}

/-- An integer is narrowed into the range of the kind. -/
theorem holds_of_narrowIntegral (h : narrowIntegral n kind mode = some m) : kind.holds m = true := by
  unfold narrowIntegral at h
  split_ifs at h
  rw [← Option.some.inj h]
  exact kind.holds_wrap n

/-- A floating number is narrowed into the range of the kind. -/
theorem holds_of_truncateFloating {x : Double} (h : truncateFloating x kind mode = some m) :
    kind.holds m = true := by
  unfold truncateFloating at h
  cases mode with
  | strict => exact (Option.filter_eq_some_iff.mp h).2
  | truncate =>
    cases kind with
    | long =>
      -- Nothing is wrapped here: the clamp itself has to stay in the range.
      rw [← Option.some.inj h]
      exact x.holds_saturate .long
    | _ =>
      rw [← Option.some.inj h]
      exact IntegralKind.holds_wrap _ _

/-- A numeral out of the range of the kind is not read. -/
theorem holds_of_integral? {t : Text} (h : t.integral? kind = some m) : kind.holds m = true := by
  unfold Text.integral? at h
  exact (Option.filter_eq_some_iff.mp h).2

end Narrowing

namespace Scalar

/-- A safe integer has 64 bits. -/
theorem holds_long_of_safeInt? {x : Double} {n : ℤ} (h : x.safeInt? = some n) :
    IntegralKind.long.holds n = true := by
  obtain ⟨-, hlow, hhigh⟩ := Store.toInt?_of_safeInt? h
  unfold Double.safeBound at hlow hhigh
  exact (IntegralKind.holds_long_iff (by omega)).mpr (by omega)

/-- A number is classified within the range of its kind. -/
theorem inRange_ofNumber (x : Double) : (ofNumber x).InRange := by
  unfold ofNumber
  cases hx : x.safeInt? with
  | none => trivial
  | some n =>
    dsimp only [InRange]
    split_ifs with hint
    · exact hint
    · exact holds_long_of_safeInt? hx

/-- So is an integer. -/
theorem inRange_ofInteger (n : ℤ) : (ofInteger n).InRange := by
  unfold ofInteger
  split_ifs with hlong
  · exact hlong
  · trivial

/-- A box is wrapped into its kind, or else it counts as a double. -/
theorem inRange_ofBox (kind : NumericKind) (x : Double) : (ofBox kind x).InRange := by
  cases kind with
  | floating kind => trivial
  | integral kind =>
    unfold ofBox
    cases hx : x.safeInt? with
    | none => trivial
    | some n => exact kind.holds_wrap n

/-- So is every stored value. -/
theorem inRange_classify (s : Store) (v : Value) : (classify s v).InRange := by
  unfold classify
  cases v with
  | number x => exact inRange_ofNumber x
  | integer n => exact inRange_ofInteger n
  | object r =>
    dsimp only
    split
    · exact inRange_ofBox _ _
    · trivial
    · trivial
  | _ => trivial

/-- A scalar in the range of its kind is read into the range of the kind asked for. -/
theorem holds_of_toIntegral {scalar : Scalar} (hscalar : scalar.InRange) {kind : IntegralKind}
    {mode : Narrowing} {n : ℤ} (h : scalar.toIntegral kind mode = some n) : kind.holds n = true := by
  unfold toIntegral at h
  cases scalar with
  | integral k m =>
    dsimp only at h
    split_ifs at h with hkind
    · -- The shortcut narrows nothing, and needs the scalar to be in range.
      rw [← Option.some.inj h, ← hkind]
      exact hscalar
    · exact holds_of_narrowIntegral h
  | floating k x => exact holds_of_truncateFloating h
  | text t => exact holds_of_integral? h
  | _ => cases h

end Scalar

/-- An integer in the range of a kind is an answer that fits the kind. -/
theorem IntegralKind.fits_answer {kind : IntegralKind} {n : ℤ} (h : kind.holds n = true) :
    (kind.answer n).Fits kind := by
  obtain ⟨hlow, hhigh⟩ := (kind.holds_iff n).mp h
  by_cases hkind : kind = .long
  · subst hkind
    exact .integer hlow hhigh
  · have hsafe := natAbs_lt_of_holds hkind h
    rw [answer_eq_number hkind]
    exact .number hkind (Double.toInt?_ofInt (by omega)) hlow hhigh

/-- A read of an integral target always has an answer, and what it gives fits the target: an integer in
its range, whatever is stored and in either mode. The integer of the scalar that a stored value is
classified as is in the range of the kind that the scalar carries. -/
theorem read_integral_fits (s : Store) (v : Value) :
    (∀ (kind : IntegralKind) (mode : Narrowing),
      ∃ c, s.read kind.target v mode = .ok c ∧ ∀ answer ∈ c, Coerced.Fits kind answer) ∧
    ∀ kind n, Scalar.classify s v = .integral kind n → kind.least ≤ n ∧ n ≤ kind.greatest := by
  have hscalar := Scalar.inRange_classify s v
  refine ⟨fun kind mode => ⟨_, s.read_target kind v mode, fun answer hanswer => ?_⟩, fun kind n h => ?_⟩
  · obtain ⟨n, hn, rfl⟩ := Option.mem_map.mp hanswer
    exact IntegralKind.fits_answer (Scalar.holds_of_toIntegral hscalar hn)
  · rw [h] at hscalar
    exact (kind.holds_iff n).mp hscalar

/-- A byte box made with 300 counts as the byte 44, and one made with `2 ^ 64` as a double, which a read of
a long clamps. -/
example : Scalar.ofBox (.integral .byte) (.ofInt 300) = .integral .byte 44 ∧
    (Scalar.ofBox (.integral .byte) (.ofRatio false (2 ^ 64) 1)).toIntegral .long .truncate =
      some (2 ^ 63 - 1) := by
  decide +kernel

end TypedReads
