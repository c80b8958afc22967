import TypedReads.Proofs.Number.Narrow

/-!
# Clamping and wrapping

`IntegralKind.clamp` moves an integer to the nearest one of a kind. What a double is clamped to is its
integral part, moved so (`Double.saturate_of_isFinite`). The bounds are compared as doubles, and
`2 ^ 63 - 1` is none; but numeric order is that of the exact values, and the double next to this bound is
only one above it.

Narrowing to a kind and then to a narrower one is narrowing to the narrower one, by wrapping
(`IntegralKind.wrap_wrap`) as by clamping (`IntegralKind.clamp_clamp`, `Double.clamp_saturate`). Where
strict narrowing gives a value, truncating gives the same (`narrowIntegral_of_strict`,
`truncateFloating_of_strict`).
-/

namespace TypedReads

namespace IntegralKind

variable {kind kind' : IntegralKind} {n : ℤ}

/-- The nearest integer in the range of a kind. -/
def clamp (kind : IntegralKind) (n : ℤ) : ℤ := max kind.least (min n kind.greatest)

/-- No range is empty. -/
theorem least_le_greatest (kind : IntegralKind) : kind.least ≤ kind.greatest := by
  cases kind <;> decide

/-- Every range holds positive integers. -/
theorem greatest_pos (kind : IntegralKind) : 0 < kind.greatest := by cases kind <;> decide

/-- A wider kind reaches further down and up. -/
theorem bounds_of_width_le (h : kind.width ≤ kind'.width) :
    kind'.least ≤ kind.least ∧ kind.greatest ≤ kind'.greatest := by
  cases kind <;> cases kind' <;> revert h <;> decide

/-- A wider kind holds what a narrower one does. -/
theorem holds_of_width_le (h : kind.width ≤ kind'.width) (hn : kind.holds n = true) :
    kind'.holds n = true := by
  rw [holds_iff] at hn ⊢
  obtain ⟨hleast, hgreatest⟩ := bounds_of_width_le h
  exact ⟨hleast.trans hn.1, hn.2.trans hgreatest⟩

/-- Low bits of low bits are low bits. -/
theorem wrap_wrap (h : kind.width ≤ kind'.width) (n : ℤ) :
    kind.wrap (kind'.wrap n) = kind.wrap n :=
  Int.bmod_bmod_of_dvd (Nat.pow_dvd_pow 2 h)

/-- What an integer is clamped to is in the range of the kind. -/
theorem holds_clamp (kind : IntegralKind) (n : ℤ) : kind.holds (kind.clamp n) = true := by
  have h := kind.least_le_greatest
  rw [holds_iff]
  unfold clamp
  omega

/-- An integer in the range of a kind is not clamped. -/
theorem clamp_of_holds (h : kind.holds n = true) : kind.clamp n = n := by
  rw [holds_iff] at h
  unfold clamp
  omega

/-- From the greatest of a kind on, integers are clamped to it. -/
theorem clamp_of_greatest_le (h : kind.greatest ≤ n) : kind.clamp n = kind.greatest := by
  have hbounds := kind.least_le_greatest
  unfold clamp
  omega

/-- Down from the least of a kind, integers are clamped to it. -/
theorem clamp_of_le_least (h : n ≤ kind.least) : kind.clamp n = kind.least := by
  have hbounds := kind.least_le_greatest
  unfold clamp
  omega

/-- A clamp to a wider kind does not change where a narrower one clamps to. -/
theorem clamp_clamp (h : kind.width ≤ kind'.width) (n : ℤ) :
    kind.clamp (kind'.clamp n) = kind.clamp n := by
  have hbounds := kind.least_le_greatest
  obtain ⟨hleast, hgreatest⟩ := bounds_of_width_le h
  unfold clamp
  omega

end IntegralKind

namespace Double

section Bounds

variable (kind : IntegralKind) {x : Double}

/-- The least of a kind is a double. -/
theorem toInt?_ofInt_least : (ofInt kind.least).toInt? = some kind.least := by
  cases kind with
  | long => exact toInt?_ofInt_about_edge (by decide) (by decide)
  | _ => exact toInt?_ofInt (by decide)

/-- The double of the greatest of a kind is that or, for 64 bits, one above it. -/
theorem toInt?_ofInt_greatest :
    ∃ n, (ofInt kind.greatest).toInt? = some n ∧ kind.greatest ≤ n ∧ n ≤ kind.greatest + 1 := by
  cases kind with
  | long => exact ⟨2 ^ 63, toInt?_ofInt_about_edge (by decide) (by decide), by decide, by decide⟩
  | _ => exact ⟨_, toInt?_ofInt (by decide), le_rfl, by decide⟩

/-- NaN is clamped to zero. -/
theorem saturate_nan : Double.nan.saturate kind = 0 := if_pos rfl

/-- An infinity is clamped to the bound on its side. -/
theorem saturate_infinite (negative : Bool) :
    (Double.infinite negative).saturate kind =
      if negative then kind.least else kind.greatest := by
  cases negative <;> cases kind <;> decide +kernel

/-- A finite number is clamped at its integral part. -/
theorem saturate_of_isFinite (hx : x.isFinite = true) :
    x.saturate kind = kind.clamp (truncated x.value) := by
  have hleast := toInt?_ofInt_least kind
  obtain ⟨m, hm, hlow, hhigh⟩ := toInt?_ofInt_greatest kind
  have habove := le_iff_value (isFinite_of_toInt? hm) hx
  have hbelow := le_iff_value hx (isFinite_of_toInt? hleast)
  rw [value_of_toInt? hm] at habove
  rw [value_of_toInt? hleast] at hbelow
  have hnan : x ≠ .nan := by
    rintro rfl
    cases hx
  unfold saturate
  rw [if_neg hnan]
  split_ifs with hgreatest hle
  · -- A number not below the compared bound has its integral part not below it either.
    have hmono := truncated_mono (habove.mp hgreatest)
    rw [truncated_intCast] at hmono
    exact (IntegralKind.clamp_of_greatest_le (hlow.trans hmono)).symm
  · have hmono := truncated_mono (hbelow.mp hle)
    rw [truncated_intCast] at hmono
    exact (IntegralKind.clamp_of_le_least hmono).symm
  -- Between the bounds the integral part is held by the kind.
  · have hlt : truncated x.value < m := by
      apply truncated_lt (kind.greatest_pos.trans_le hlow)
      exact not_le.mp (mt habove.mpr hgreatest)
    have hge : kind.least ≤ truncated x.value := by
      rw [← truncated_intCast kind.least]
      exact truncated_mono (not_le.mp (mt hbelow.mpr hle)).le
    rw [trunc?_eq hx, Option.getD_some]
    exact (IntegralKind.clamp_of_holds ((kind.holds_iff _).mpr ⟨hge, by omega⟩)).symm

/-- A number that is an integer is clamped as one. -/
theorem saturate_of_toInt? {n : ℤ} (h : x.toInt? = some n) : x.saturate kind = kind.clamp n := by
  rw [saturate_of_isFinite kind (isFinite_of_toInt? h), value_of_toInt? h, truncated_intCast]

/-- An integer from `2 ^ 31` on in magnitude is clamped to a bound of 32 bits. -/
theorem saturate_int {n : ℤ} (h : x.toInt? = some n) (hge : 2 ^ 31 ≤ n.natAbs) :
    x.saturate .int = if n < 0 then IntegralKind.int.least else IntegralKind.int.greatest := by
  rw [saturate_of_toInt? .int h]
  split_ifs with hneg
  · apply IntegralKind.clamp_of_le_least
    simp only [IntegralKind.least, IntegralKind.width]
    omega
  · apply IntegralKind.clamp_of_greatest_le
    simp only [IntegralKind.greatest, IntegralKind.width]
    omega

/-- What a number is clamped to is in the range of the kind. -/
theorem holds_saturate (x : Double) : kind.holds (x.saturate kind) = true := by
  cases x with
  | nan =>
    rw [saturate_nan]
    cases kind <;> decide
  | infinite negative =>
    -- The bounds are in the range themselves.
    rw [saturate_infinite]
    cases negative <;> cases kind <;> decide
  | finite negative rank =>
    rw [saturate_of_isFinite kind rfl]
    exact kind.holds_clamp _

variable {kind}

/-- A number clamped to a kind and then to a narrower one is clamped to the narrower one. -/
theorem clamp_saturate {kind' : IntegralKind} (h : kind.width ≤ kind'.width) (x : Double) :
    kind.clamp (x.saturate kind') = x.saturate kind := by
  cases x with
  | nan =>
    rw [saturate_nan, saturate_nan]
    cases kind <;> decide
  | infinite negative =>
    obtain ⟨hleast, hgreatest⟩ := IntegralKind.bounds_of_width_le h
    rw [saturate_infinite, saturate_infinite]
    split_ifs
    · exact IntegralKind.clamp_of_le_least hleast
    · exact IntegralKind.clamp_of_greatest_le hgreatest
  | finite negative rank =>
    rw [saturate_of_isFinite _ rfl, saturate_of_isFinite _ rfl, IntegralKind.clamp_clamp h]

end Bounds

end Double

/-- An integer that a kind holds is narrowed to itself. -/
theorem narrowIntegral_of_holds {n : ℤ} {kind : IntegralKind} (h : kind.holds n = true)
    (mode : Narrowing) : narrowIntegral n kind mode = some n := by
  unfold narrowIntegral
  rw [if_neg (fun hout => hout.2 h), IntegralKind.wrap_of_holds h]

/-- Truncating narrowing of an integer always gives its low bits. -/
theorem narrowIntegral_truncate (n : ℤ) (kind : IntegralKind) :
    narrowIntegral n kind .truncate = some (kind.wrap n) :=
  if_neg fun h => Narrowing.noConfusion h.1

/-- Truncating narrowing of a double always gives one integer: for 32 bits or more where it is clamped
to, and for fewer the low bits of where 32 bits clamp it to. -/
theorem truncateFloating_truncate (x : Double) (kind : IntegralKind) :
    truncateFloating x kind .truncate =
      some (if kind = .long then x.saturate .long else kind.wrap (x.saturate .int)) := by
  cases kind <;> rfl

/-- What strict narrowing of an integer gives, truncating gives too. -/
theorem narrowIntegral_of_strict {n m : ℤ} {kind : IntegralKind}
    (h : narrowIntegral n kind .strict = some m) : narrowIntegral n kind .truncate = some m := by
  unfold narrowIntegral at h
  split_ifs at h
  rw [narrowIntegral_truncate, ← h]

/-- A double that strict narrowing takes for an integer is finite, and the integer is its integral part,
which the kind holds. -/
theorem truncateFloating_strict_iff {x : Double} {kind : IntegralKind} {n : ℤ} :
    truncateFloating x kind .strict = some n ↔
      x.isFinite = true ∧ truncated x.value = n ∧ kind.holds n = true := by
  by_cases hx : x.isFinite = true
  · rw [truncateFloating_strict hx, kind.exact_eq]
    constructor
    · intro h
      split_ifs at h with hholds
      obtain rfl := Option.some.inj h
      exact ⟨hx, rfl, hholds⟩
    · rintro ⟨-, rfl, hholds⟩
      exact if_pos hholds
  · -- Neither NaN nor an infinity has an integral part.
    refine iff_of_false (fun h => hx ?_) fun h => hx h.1
    cases x with
    | finite negative rank => rfl
    | nan => cases h
    | infinite negative => cases h

/-- What strict narrowing of a double gives, truncating gives too. -/
theorem truncateFloating_of_strict {x : Double} {kind : IntegralKind} {n : ℤ}
    (h : truncateFloating x kind .strict = some n) :
    truncateFloating x kind .truncate = some n := by
  obtain ⟨hx, rfl, hholds⟩ := truncateFloating_strict_iff.mp h
  rw [truncateFloating_truncate, Option.some.injEq]
  split_ifs with hkind
  · subst hkind
    rw [Double.saturate_of_isFinite _ hx, IntegralKind.clamp_of_holds hholds]
  · -- A kind below 64 bits is within 32 bits, where nothing is clamped.
    have hwidth : kind.width ≤ IntegralKind.int.width := by
      cases kind with
      | long => exact absurd rfl hkind
      | _ => decide
    rw [Double.saturate_of_isFinite _ hx,
      IntegralKind.clamp_of_holds (IntegralKind.holds_of_width_le hwidth hholds),
      IntegralKind.wrap_of_holds hholds]

end TypedReads
