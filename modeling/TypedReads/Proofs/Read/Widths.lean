import TypedReads.Proofs.Number.Clamp
import TypedReads.Proofs.Read.Literal
import TypedReads.Proofs.Read.Range

/-!
# Integral reads across widths

The integral reads of one stored value are related. A read in strict mode, and one of a text in either
mode, gives a number as it is, so that a read of a wider kind gives the same number
(`Scalar.toIntegral_wider`). A truncating read of anything else gives low bits: of the integer itself, or
of the integral part of a double once it was clamped to 32 bits (`Scalar.truncating_reads`). Low bits of
low bits are low bits, and a clamp to 64 bits does not move a clamp to 32, so each of the four answers
is made of the next wider one (`integral_reads_coherent`).
-/

namespace TypedReads

/-- The low bits of an integer are those of any wider cut of it. -/
theorem IntegralKind.wrapsTo_of_width_le {kind kind' : IntegralKind} (h : kind.width ≤ kind'.width)
    (n : ℤ) : kind.WrapsTo (kind'.wrap n) (kind.wrap n) := by
  have hwrap := kind.wrapsTo_wrap (kind'.wrap n)
  rwa [IntegralKind.wrap_wrap h] at hwrap

namespace Scalar

variable {scalar : Scalar} {kind kind' : IntegralKind} {n : ℤ}

/-- Only a text counts as a text. -/
theorem classify_eq_text_iff {s : Store} {v : Value} {t : Text} :
    classify s v = .text t ↔ v = .text t := by
  constructor
  · intro h
    unfold classify at h
    cases v with
    | text t' => rw [text.inj h]
    -- Numbers and objects are classified by what they hold.
    | number x =>
      unfold ofNumber at h
      dsimp only at h
      split at h <;> cases h
    | integer n =>
      unfold ofInteger at h
      dsimp only at h
      split_ifs at h
    | object r =>
      dsimp only at h
      split at h
      · unfold ofBox at h
        split at h
        · cases h
        · split at h <;> cases h
      · cases h
      · cases h
    | _ => cases h
  · rintro rfl
    rfl

/-- A number that is read as it is, in strict mode or from a text, is read so at every wider kind. -/
theorem toIntegral_wider {mode : Narrowing} (hmode : mode = .strict ∨ ∃ t, scalar = .text t)
    (hscalar : scalar.InRange) (hwidth : kind.width ≤ kind'.width)
    (h : scalar.toIntegral kind mode = some n) : scalar.toIntegral kind' mode = some n := by
  -- What the narrower kind gives is in its range, and so in the range of the wider one.
  have hholds := IntegralKind.holds_of_width_le hwidth (holds_of_toIntegral hscalar h)
  cases scalar with
  | integral k m =>
    obtain rfl : mode = .strict := hmode.resolve_right fun ⟨t, ht⟩ => by cases ht
    rw [toIntegral_integral hscalar, narrowIntegral_strict, IntegralKind.exact_eq] at h ⊢
    split_ifs at h
    obtain rfl := Option.some.inj h
    exact if_pos hholds
  | floating k x =>
    obtain rfl : mode = .strict := hmode.resolve_right fun ⟨t, ht⟩ => by cases ht
    obtain ⟨hfinite, hvalue, -⟩ := truncateFloating_strict_iff.mp h
    exact truncateFloating_strict_iff.mpr ⟨hfinite, hvalue, hholds⟩
  | text t =>
    unfold toIntegral Text.integral? at h ⊢
    obtain ⟨hparsed, -⟩ := Option.filter_eq_some_iff.mp h
    exact Option.filter_eq_some_iff.mpr ⟨hparsed, hholds⟩
  | char t => cases h
  | bool b => cases h
  | absent => cases h
  | other v => cases h

/-- Truncating reads of anything but a text: none is there, or all are, and those of fewer than 64 bits
are low bits of one integer, which is the 64-bit answer for an integer and its clamp to 32 bits for a
double. -/
theorem truncating_reads (hscalar : scalar.InRange) (htext : ∀ t, scalar ≠ .text t) :
    (∀ kind, scalar.toIntegral kind .truncate = none) ∨
    ∃ l m, scalar.toIntegral .long .truncate = some l ∧ IntegralKind.long.holds l = true ∧
      (∀ kind, kind ≠ .long → scalar.toIntegral kind .truncate = some (kind.wrap m)) ∧
      ((∃ kind n, scalar = .integral kind n) ∧ m = l ∨
        (∃ kind x, scalar = .floating kind x) ∧ m = IntegralKind.int.clamp l) := by
  cases scalar with
  | integral k n =>
    have hlong := IntegralKind.long_holds_of_holds hscalar
    have hread : ∀ kind, (integral k n).toIntegral kind .truncate = some (kind.wrap n) := by
      intro kind
      rw [toIntegral_integral hscalar, narrowIntegral_truncate]
    refine .inr ⟨n, n, ?_, hlong, fun kind _ => hread kind, .inl ⟨⟨k, n, rfl⟩, rfl⟩⟩
    rw [hread, IntegralKind.wrap_of_holds hlong]
  | floating k x =>
    -- The narrow kinds are cut from a clamp to 32 bits, which is also a clamp of the 64-bit answer.
    have hread : ∀ kind, (floating k x).toIntegral kind .truncate =
        some (if kind = .long then x.saturate .long else kind.wrap (x.saturate .int)) :=
      truncateFloating_truncate x
    refine .inr ⟨x.saturate .long, x.saturate .int, hread .long, x.holds_saturate .long,
      fun kind hkind => ?_, .inr ⟨⟨k, x, rfl⟩, ?_⟩⟩
    · rw [hread, if_neg hkind]
    · exact (Double.clamp_saturate (by decide) x).symm
  | text t => exact absurd rfl (htext t)
  | char t => exact .inl fun kind => rfl
  | bool b => exact .inl fun kind => rfl
  | absent => exact .inl fun kind => rfl
  | other v => exact .inl fun kind => rfl

end Scalar

/-- Integral reads of one stored value are coherent across widths. In strict mode, and of a text in both
modes, what a read gives every wider read gives too. In truncating mode the reads of anything but a text
are all absent or all there: the short one is the low 16 bits of the integer one and the byte one the low
8 bits of the short one, while the integer one is the low 32 bits of the long one if the value counts as
an integer, and the long one clamped to 32 bits if it counts as a floating number. -/
theorem integral_reads_coherent (s : Store) (v : Value) :
    (∀ mode, (mode = .strict ∨ ∃ t, v = .text t) →
      ∀ (kind : IntegralKind) (c : Coerced), s.read kind.target v mode = .ok (some c) →
        ∃ n, c = kind.answer n ∧ kind.holds n = true ∧
          ∀ kind' : IntegralKind, kind.width ≤ kind'.width →
            s.read kind'.target v mode = .ok (some (kind'.answer n))) ∧
    ((∀ t, v ≠ .text t) →
      (∀ kind : IntegralKind, s.read kind.target v .truncate = .ok none) ∨
      ∃ byte short int long,
        s.read .byte v .truncate = .ok (some (.number (Double.ofInt byte))) ∧
        s.read .short v .truncate = .ok (some (.number (Double.ofInt short))) ∧
        s.read .integer v .truncate = .ok (some (.number (Double.ofInt int))) ∧
        s.read .long v .truncate = .ok (some (.integer long)) ∧
        IntegralKind.byte.WrapsTo short byte ∧ IntegralKind.short.WrapsTo int short ∧
        IntegralKind.long.holds long = true ∧
        ((∃ kind n, Scalar.classify s v = .integral kind n) ∧ IntegralKind.int.WrapsTo long int ∨
          (∃ kind x, Scalar.classify s v = .floating kind x) ∧
            int = IntegralKind.int.clamp long)) := by
  have hscalar := Scalar.inRange_classify s v
  constructor
  -- A strict read, or one of a text, is exact, so that a wider kind has room for it.
  · intro mode hmode kind c hc
    rw [s.read_target, Except.ok.injEq] at hc
    obtain ⟨n, hn, rfl⟩ := Option.map_eq_some_iff.mp hc
    refine ⟨n, rfl, Scalar.holds_of_toIntegral hscalar hn, fun kind' hwidth => ?_⟩
    have hmode' : mode = .strict ∨ ∃ t, Scalar.classify s v = .text t :=
      hmode.imp_right fun ⟨t, ht⟩ => ⟨t, Scalar.classify_eq_text_iff.mpr ht⟩
    have hwider : s.readIntegral kind' v mode = some n :=
      Scalar.toIntegral_wider hmode' hscalar hwidth hn
    rw [s.read_target, hwider]
    rfl
  -- All truncating reads are cut from one integer, or none of them has an answer.
  · intro htext
    have hread : ∀ {kind : IntegralKind} {n : Option ℤ},
        (Scalar.classify s v).toIntegral kind .truncate = n →
        s.read kind.target v .truncate = .ok (n.map kind.answer) := by
      rintro kind n rfl
      exact s.read_target kind v .truncate
    obtain hnone | ⟨long, m, hlong, hholds, hnarrow, hfrom⟩ :=
      Scalar.truncating_reads hscalar fun t ht => htext t (Scalar.classify_eq_text_iff.mp ht)
    · exact .inl fun kind => hread (hnone kind)
    · refine .inr ⟨IntegralKind.byte.wrap m, IntegralKind.short.wrap m, IntegralKind.int.wrap m, long,
        hread (hnarrow .byte (by decide)), hread (hnarrow .short (by decide)),
        hread (hnarrow .int (by decide)), hread hlong,
        IntegralKind.wrapsTo_of_width_le (by decide) m,
        IntegralKind.wrapsTo_of_width_le (by decide) m, hholds, hfrom.imp ?_ ?_⟩
      -- An integer is cut off, and a floating number is clamped before.
      · rintro ⟨hintegral, rfl⟩
        exact ⟨hintegral, IntegralKind.int.wrapsTo_wrap m⟩
      · rintro ⟨hfloating, rfl⟩
        exact ⟨hfloating, IntegralKind.wrap_of_holds (IntegralKind.int.holds_clamp long)⟩

/-- The byte that a text spells is read at every width, and the double `3000000000.5` is read as the
greatest integer of 32 bits, to which its 64-bit answer is clamped. -/
theorem integral_reads_of_hundred_and_large :
    (∃ n, Store.empty.read .byte (.text (units "+100")) .truncate =
        .ok (some (IntegralKind.byte.answer n)) ∧
      Store.empty.read .long (.text (units "+100")) .truncate = .ok (some (.integer n))) ∧
    (∀ t, Value.number (.ofRatio false 6000000001 2) ≠ .text t) ∧
    ∃ int long,
      Store.empty.read .integer (.number (.ofRatio false 6000000001 2)) .truncate =
        .ok (some (.number (Double.ofInt int))) ∧
      Store.empty.read .long (.number (.ofRatio false 6000000001 2)) .truncate =
        .ok (some (.integer long)) ∧
      int = IntegralKind.int.clamp long ∧ long = 3000000000 := by
  obtain ⟨hkept, -⟩ := integral_reads_coherent Store.empty (.text (units "+100"))
  obtain ⟨-, hlow⟩ := integral_reads_coherent Store.empty (.number (.ofRatio false 6000000001 2))
  refine ⟨?_, fun t => Value.noConfusion, ?_⟩
  -- The integer that a text spells is kept at every kind that is wider than one that holds it.
  · have hn : Store.empty.readIntegral .byte (.text (units "+100")) .truncate = some 100 := by
      decide +kernel
    have hread := Store.empty.read_target .byte (.text (units "+100")) .truncate
    rw [hn] at hread
    obtain ⟨n, hc, -, hwider⟩ := hkept .truncate (.inr ⟨_, rfl⟩) .byte _ hread
    exact ⟨n, hread.trans (congrArg _ (congrArg _ hc)), hwider .long (by decide)⟩
  -- The double is classified as no integer, so its answers are clamped and do not wrap.
  · have hn : Store.empty.readIntegral .long (.number (.ofRatio false 6000000001 2)) .truncate =
        some 3000000000 := by decide +kernel
    have hclass : Scalar.classify Store.empty (.number (.ofRatio false 6000000001 2)) =
        .floating .double (.ofRatio false 6000000001 2) := by decide +kernel
    have hread := Store.empty.read_target .long (.number (.ofRatio false 6000000001 2)) .truncate
    rw [hn] at hread
    obtain hnone | ⟨-, -, int, long, -, -, hint, hlong, -, -, -, hfrom⟩ :=
      hlow fun t => Value.noConfusion
    · cases hread.symm.trans (hnone .long)
    · have heq := hread.symm.trans hlong
      rw [hclass] at hfrom
      obtain ⟨⟨kind, n, hkind⟩, -⟩ | ⟨-, hclamp⟩ := hfrom
      · cases hkind
      · cases heq
        exact ⟨int, _, hint, hlong, hclamp, rfl⟩

end TypedReads
