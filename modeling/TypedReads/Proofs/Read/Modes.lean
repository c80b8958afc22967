import TypedReads.Proofs.Number.Clamp
import TypedReads.Proofs.Read.Range

/-!
# Strict reads refine truncating reads

The two modes go different ways to an integer: one checks the range of the kind, and the other clamps
and wraps. What they make of a stored value is the same wherever a strict read has an answer. Where it
has none and a truncating read has, the answer is not the number that was narrowed but an altered one
(`Scalar.Altered`): another integer than the integral part, or an infinity in place of a finite number.
So the strict mode of an adapter removes altered answers and nothing else
(`strict_reads_refine_truncating`).

`Store.Refines` is this relation between two reads, and there is one lemma for each kind of target: the
integral and the floating ones narrow, and the others do not look at the mode.
-/

namespace TypedReads

namespace Scalar

/-- The double that a floating read of a scalar starts from. -/
def double? : Scalar → Option Double
  | .integral _ n => some (Double.ofInt n)
  | .floating _ x => some x
  | .text t => t.floating?
  | _ => none

/-- An answer for which a number was altered: an integer in the range of an integral target that is not
the integral part of the number, or an infinity for a finite number. An infinity itself and NaN have no
integral part. -/
inductive Altered : Scalar → Target → Coerced → Prop
  | integral {kind kind' : IntegralKind} {n m : ℤ} (hholds : kind.holds m = true) (hne : m ≠ n) :
      Altered (.integral kind' n) kind.target (kind.answer m)
  | floating {kind : IntegralKind} {kind' : FloatingKind} {x : Double} {m : ℤ}
      (hholds : kind.holds m = true) (hne : x.isFinite = true → m ≠ truncated x.value) :
      Altered (.floating kind' x) kind.target (kind.answer m)
  | infinite {scalar : Scalar} {x : Double} {negative : Bool} (hx : scalar.double? = some x)
      (hfinite : x.isFinite = true) :
      Altered scalar .float (.number (.infinite negative))

variable {scalar : Scalar}

section Integral

variable {kind : IntegralKind} {n : ℤ}

/-- An integral read narrows the integer or the double that a scalar is, or else does not look at the
mode. -/
theorem toIntegral_cases (hscalar : scalar.InRange) (kind : IntegralKind) :
    (∀ mode mode', scalar.toIntegral kind mode = scalar.toIntegral kind mode') ∨
    (∃ k n, scalar = .integral k n ∧
      ∀ mode, scalar.toIntegral kind mode = narrowIntegral n kind mode) ∨
    ∃ k x, scalar = .floating k x ∧
      ∀ mode, scalar.toIntegral kind mode = truncateFloating x kind mode := by
  cases scalar with
  | integral k n => exact .inr (.inl ⟨k, n, rfl, toIntegral_integral hscalar kind⟩)
  | floating k x => exact .inr (.inr ⟨k, x, rfl, fun mode => rfl⟩)
  | _ => exact .inl fun mode mode' => rfl

/-- An integral read in strict mode has the answer of the truncating one. -/
theorem toIntegral_of_strict (hscalar : scalar.InRange) (h : scalar.toIntegral kind .strict = some n) :
    scalar.toIntegral kind .truncate = some n := by
  obtain hsame | ⟨k, m, -, hread⟩ | ⟨k, x, -, hread⟩ := toIntegral_cases hscalar kind
  · rw [hsame .truncate .strict, h]
  · rw [hread] at h ⊢
    exact narrowIntegral_of_strict h
  · rw [hread] at h ⊢
    exact truncateFloating_of_strict h

/-- An integral answer that the strict mode removes is altered. -/
theorem altered_of_toIntegral (hscalar : scalar.InRange)
    (hstrict : scalar.toIntegral kind .strict = none)
    (h : scalar.toIntegral kind .truncate = some n) :
    scalar.Altered kind.target (kind.answer n) := by
  have hholds := holds_of_toIntegral hscalar h
  -- An unaltered integer is in range, and so the strict mode would have kept it.
  obtain hsame | ⟨k, m, rfl, hread⟩ | ⟨k, x, rfl, hread⟩ := toIntegral_cases hscalar kind
  · rw [hsame .truncate .strict, hstrict] at h
    cases h
  · apply Altered.integral hholds
    rintro rfl
    rw [hread, narrowIntegral_of_holds hholds] at hstrict
    cases hstrict
  · apply Altered.floating hholds
    rintro hx rfl
    rw [hread, truncateFloating_strict_iff.mpr ⟨hx, rfl, hholds⟩] at hstrict
    cases hstrict

end Integral

section Floating

variable {kind : FloatingKind} {x y : Double}

/-- A rounded number is not NaN unless the number is, so that one past the 32-bit numbers is infinite. -/
theorem toSingle_overflow (hx : x.isFinite = true) (h : ¬ x.toSingle.isFinite = true) :
    ∃ negative, x.toSingle = .infinite negative := by
  cases x with
  | nan => cases hx
  | infinite negative => cases hx
  | finite negative rank =>
    unfold Double.toSingle Double.ofRatio Double.ofRank at h ⊢
    dsimp only at h ⊢
    split_ifs at h ⊢
    · exact absurd rfl h
    · exact ⟨negative, rfl⟩
    · exact ⟨negative, rfl⟩

/-- A number in the two modes: they agree, or it is finite and too large for 32 bits, so that the strict
mode has nothing and the truncating one an infinity. -/
theorem widen_cases (x : Double) (kind : FloatingKind) :
    widen x kind .strict = widen x kind .truncate ∨
    kind = .float ∧ x.isFinite = true ∧ widen x kind .strict = none ∧
      ∃ negative, widen x kind .truncate = some (.infinite negative) := by
  cases kind with
  | double => exact .inl rfl
  | float =>
    have htruncate : narrowToSingle x .truncate = some x.toSingle :=
      if_neg fun hmode => Narrowing.noConfusion hmode.1
    unfold widen
    dsimp only
    rw [htruncate]
    by_cases hover : x.isFinite = true ∧ ¬ x.toSingle.isFinite = true
    · obtain ⟨negative, hnegative⟩ := toSingle_overflow hover.1 hover.2
      exact .inr ⟨rfl, hover.1, if_pos ⟨rfl, hover⟩, negative, congrArg some hnegative⟩
    · exact .inl (if_neg fun h => hover h.2)

/-- A floating read widens the double that a scalar is, or else does not look at the mode. -/
theorem toFloating_cases (scalar : Scalar) (kind : FloatingKind) :
    (∀ mode mode', scalar.toFloating kind mode = scalar.toFloating kind mode') ∨
    ∃ x, scalar.double? = some x ∧ ∀ mode, scalar.toFloating kind mode = widen x kind mode := by
  cases scalar with
  | integral k n => exact .inr ⟨_, rfl, fun mode => rfl⟩
  | floating k x =>
    by_cases hkind : k = kind
    · exact .inl fun mode mode' => (if_pos hkind).trans (if_pos hkind).symm
    · exact .inr ⟨x, rfl, fun mode => if_neg hkind⟩
  | text t =>
    cases hx : t.floating? with
    | none => exact .inl fun mode mode' => by simp only [toFloating, hx, Option.bind_none]
    | some x => exact .inr ⟨x, hx, fun mode => by rw [toFloating, hx, Option.bind_some]⟩
  | _ => exact .inl fun mode mode' => rfl

/-- A floating read in strict mode has the answer of the truncating one. -/
theorem toFloating_of_strict (h : scalar.toFloating kind .strict = some y) :
    scalar.toFloating kind .truncate = some y := by
  obtain hsame | ⟨x, -, hread⟩ := toFloating_cases scalar kind
  · rw [hsame .truncate .strict, h]
  · rw [hread] at h ⊢
    obtain hwiden | ⟨-, -, hnone, -⟩ := widen_cases x kind
    · rw [← hwiden, h]
    · rw [hnone] at h
      cases h

/-- A floating answer that the strict mode removes is altered. -/
theorem altered_of_toFloating (hstrict : scalar.toFloating kind .strict = none)
    (h : scalar.toFloating kind .truncate = some y) :
    scalar.Altered kind.target (.number y) := by
  obtain hsame | ⟨x, hx, hread⟩ := toFloating_cases scalar kind
  · rw [hsame .truncate .strict, hstrict] at h
    cases h
  · rw [hread] at hstrict h
    obtain hwiden | ⟨rfl, hfinite, -, negative, hinfinite⟩ := widen_cases x kind
    · rw [← hwiden, hstrict] at h
      cases h
    · rw [hinfinite] at h
      cases h
      exact .infinite hx hfinite

end Floating

end Scalar

namespace Store

/-- What a read gives in strict mode next to what it gives in truncating mode: the same, or nothing in
place of an altered answer. -/
inductive Refines (scalar : Scalar) (target : Target) :
    Except Fault (Option Coerced) → Except Fault (Option Coerced) → Prop
  | same (answer : Except Fault (Option Coerced)) : Refines scalar target answer answer
  | removed {c : Coerced} (h : scalar.Altered target c) : Refines scalar target (.ok none) (.ok (some c))

/-- Narrowing in the two modes refines if it does so where both have an answer and where one has. -/
theorem refines_map {α : Type} {scalar : Scalar} {target : Target} {strict truncate : Option α}
    {answer : α → Coerced} (hkeep : ∀ a, strict = some a → truncate = some a)
    (hremove : ∀ a, strict = none → truncate = some a → scalar.Altered target (answer a)) :
    Refines scalar target (.ok (strict.map answer)) (.ok (truncate.map answer)) := by
  cases hstrict : strict with
  | some a =>
    rw [hkeep a hstrict]
    exact .same _
  | none =>
    cases htruncate : truncate with
    | none => exact .same _
    | some a => exact .removed (hremove a hstrict htruncate)

/-- A strict read of any target refines the truncating one. -/
theorem refines_read (s : Store) (v : Value) (target : Target) :
    Refines (Scalar.classify s v) target (s.read target v .strict) (s.read target v .truncate) := by
  -- Reads of numbers narrow the scalar, and the others do not look at the mode.
  have hintegral : ∀ kind : IntegralKind, Refines (Scalar.classify s v) kind.target
      (s.read kind.target v .strict) (s.read kind.target v .truncate) := by
    intro kind
    rw [s.read_target, s.read_target]
    have hscalar := Scalar.inRange_classify s v
    exact refines_map (fun n => Scalar.toIntegral_of_strict hscalar) fun n =>
      Scalar.altered_of_toIntegral hscalar
  have hfloating : ∀ kind : FloatingKind, Refines (Scalar.classify s v) kind.target
      (s.read kind.target v .strict) (s.read kind.target v .truncate) := by
    intro kind
    rw [s.read_floating, s.read_floating]
    exact refines_map (fun x => Scalar.toFloating_of_strict) fun x => Scalar.altered_of_toFloating
  cases target with
  | byte => exact hintegral .byte
  | short => exact hintegral .short
  | integer => exact hintegral .int
  | long => exact hintegral .long
  | float => exact hfloating .float
  | double => exact hfloating .double
  | char => exact .same _
  | string => exact .same _
  | boolean => exact .same _

variable {scalar : Scalar} {target : Target} {strict truncate : Except Fault (Option Coerced)}

/-- A strict answer is the truncating one. -/
theorem Refines.kept (h : Refines scalar target strict truncate) {c : Coerced}
    (hc : strict = .ok (some c)) : truncate = .ok (some c) := by
  cases h with
  | same => exact hc
  | removed => cases hc

/-- A removed answer is altered. -/
theorem Refines.altered (h : Refines scalar target strict truncate) {c : Coerced}
    (hstrict : strict = .ok none) (hc : truncate = .ok (some c)) : scalar.Altered target c := by
  cases h with
  | same => cases hstrict.symm.trans hc
  | removed haltered =>
    cases hc
    exact haltered

/-- Both modes fail alike. -/
theorem Refines.fault (h : Refines scalar target strict truncate) (f : Fault) :
    strict = .error f ↔ truncate = .error f := by
  cases h with
  | same => exact Iff.rfl
  | removed => exact iff_of_false (fun hf => by cases hf) fun hf => by cases hf

end Store

/-- Strict reads refine truncating ones. Of any stored value and for any target, a strict answer is the
truncating answer; a truncating answer where the strict read has none is altered, and comes from a number
or, as an infinity, from a text; and both modes fail alike. The same holds of the keys of a map that a
strict and a truncating adapter look at. -/
theorem strict_reads_refine_truncating (s : Store) (target : Target) :
    (∀ v,
      (∀ c, s.read target v .strict = .ok (some c) → s.read target v .truncate = .ok (some c)) ∧
      (∀ c, s.read target v .strict = .ok none → s.read target v .truncate = .ok (some c) →
        (Scalar.classify s v).Altered target c) ∧
      ∀ f, s.read target v .strict = .error f ↔ s.read target v .truncate = .error f) ∧
    ∀ (backing : Ref) (key : Text),
      (∀ c, (Adapter.mk backing .strict).read s target key = .ok (some c) →
        (Adapter.mk backing .truncate).read s target key = .ok (some c)) ∧
      (∀ c, (Adapter.mk backing .strict).read s target key = .ok none →
        (Adapter.mk backing .truncate).read s target key = .ok (some c) →
        ∃ v, (Adapter.mk backing .truncate).get? s key = some v ∧
          (Scalar.classify s v).Altered target c) ∧
      ∀ f, (Adapter.mk backing .strict).read s target key = .error f ↔
        (Adapter.mk backing .truncate).read s target key = .error f := by
  constructor
  · intro v
    have hrefines := s.refines_read v target
    exact ⟨fun c => hrefines.kept, fun c => hrefines.altered, hrefines.fault⟩
  · intro backing key
    -- What is stored under the key does not depend on the mode.
    have hget : (Adapter.mk backing .strict).get? s key = (Adapter.mk backing .truncate).get? s key :=
      rfl
    unfold Adapter.read
    rw [hget]
    cases (Adapter.mk backing .truncate).get? s key with
    | none =>
      refine ⟨fun c hc => hc, ?_, fun f => Iff.rfl⟩
      intro c _ hc
      cases hc
    | some v =>
      have hrefines := s.refines_read v target
      exact ⟨fun c => hrefines.kept, fun c hstrict hc => ⟨v, rfl, hrefines.altered hstrict hc⟩,
        hrefines.fault⟩

/-- A map with two numbers about the upper bound of bytes. -/
def boundsStore : Store := (Store.empty.alloc (.map
  [(.text (units "in"), .number (.ofRatio false 1279 10)),
    (.text (units "out"), .number (.ofInt 128))])).2

/-- A byte under a key of the map. -/
theorem boundsStore_read (mode : Narrowing) (key : Text) {v : Value} (n : Option ℤ)
    (hv : ((Adapter.mk 0 mode).entries boundsStore).get? (.text key) = some v)
    (hn : boundsStore.readIntegral .byte v mode = n) :
    (Adapter.mk 0 mode).read boundsStore .byte key = .ok (n.map IntegralKind.byte.answer) := by
  rw [Store.read_of_entry hv, ← hn]
  exact boundsStore.read_target .byte v mode

/-- A number with a fraction above the greatest byte is read in both modes. The next integer is read in
truncating mode alone, as the least byte, and the numeral of a number past the 32-bit ones in truncating
mode alone, as an infinity. -/
theorem boundsStore_refines :
    (∃ c, (Adapter.mk 0 .strict).read boundsStore .byte (units "in") = .ok (some c) ∧
      (Adapter.mk 0 .truncate).read boundsStore .byte (units "in") = .ok (some c)) ∧
    (∃ v c, (Adapter.mk 0 .strict).read boundsStore .byte (units "out") = .ok none ∧
      (Adapter.mk 0 .truncate).read boundsStore .byte (units "out") = .ok (some c) ∧
      (Scalar.classify boundsStore v).Altered .byte c) ∧
    ∃ c, boundsStore.read .float (.text (units "-1e39")) .strict = .ok none ∧
      boundsStore.read .float (.text (units "-1e39")) .truncate = .ok (some c) ∧
      (Scalar.classify boundsStore (.text (units "-1e39"))).Altered .float c := by
  obtain ⟨-, hbyte⟩ := strict_reads_refine_truncating boundsStore .byte
  obtain ⟨hfloat, -⟩ := strict_reads_refine_truncating boundsStore .float
  refine ⟨?_, ?_, ?_⟩
  · have hin := boundsStore_read .strict (units "in") (some 127) rfl
      (by decide +kernel)
    exact ⟨_, hin, (hbyte 0 (units "in")).1 _ hin⟩
  · have hstrict := boundsStore_read .strict (units "out") none rfl
      (by decide +kernel)
    have htruncate := boundsStore_read .truncate (units "out") (some (-128)) rfl
      (by decide +kernel)
    obtain ⟨v, -, haltered⟩ := (hbyte 0 (units "out")).2.1 _ hstrict htruncate
    exact ⟨v, _, hstrict, htruncate, haltered⟩
  -- The text is past the 32-bit numbers, though not past the doubles.
  · have hstrict : boundsStore.readFloating .float (.text (units "-1e39")) .strict = none := by
      decide +kernel
    have htruncate : boundsStore.readFloating .float (.text (units "-1e39")) .truncate =
        some (.infinite true) := by decide +kernel
    have hnone := boundsStore.read_floating .float (.text (units "-1e39")) .strict
    have hsome := boundsStore.read_floating .float (.text (units "-1e39")) .truncate
    rw [hstrict] at hnone
    rw [htruncate] at hsome
    exact ⟨_, hnone, hsome, (hfloat _).2.1 _ hnone hsome⟩

end TypedReads
