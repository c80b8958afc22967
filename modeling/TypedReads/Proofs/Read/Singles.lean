import TypedReads.Proofs.Number.SingleText
import TypedReads.Proofs.Read.Strict

/-!
# Which 32-bit reads give 32-bit numbers

`Double.IsSingle` says that a double is one of the 32-bit numbers, with no reference to rounding; those are
the doubles that rounding to 32 bits leaves alone (`isSingle_iff`). A read of a 32-bit number rounds what it
finds, with one exception: a box of that kind is taken at its word, and the number in it is handed on as it
is. A box of an integral kind is brought back into its range before it is read, and one of a 32-bit number
is not. So the reads that give more than 32 bits are those of a box that was made with such a number
(`float_reads_single`).
-/

namespace TypedReads

open BinaryFormat

/-- The 32-bit numbers among the doubles: NaN, the infinities, and the numbers of a 32-bit magnitude. -/
inductive Double.IsSingle : Double → Prop
  | nan : IsSingle .nan
  | infinite (negative : Bool) : IsSingle (.infinite negative)
  | finite {negative : Bool} {rank : Fin double.ranks} {k : ℕ} (hk : k < single.ranks)
      (h : double.valueAt rank = single.valueAt k) : IsSingle (.finite negative rank)

/-- The 32-bit numbers are those that rounding to 32 bits leaves alone. -/
theorem Double.isSingle_iff {x : Double} : x.IsSingle ↔ x.toSingle = x := by
  constructor
  · intro h
    cases h with
    | nan => rfl
    | infinite negative => rfl
    | @finite negative rank k hk hvalue =>
      -- One rank has this magnitude, and it is that of the widened 32-bit number.
      have hrank : double.rank (single.unitsAt k) single.one = rank.val := by
        refine (valueAt_strictMono double_precision_pos).injective ?_
        rw [double_valueAt_widened, hvalue]
      rw [← ofRatio_eq_finite_iff.mpr hrank]
      exact toSingle_ofRatio negative hk
  · intro h
    cases x with
    | nan => exact .nan
    | infinite negative => exact .infinite negative
    | finite negative rank =>
      obtain ⟨_, rank, k, heq, hk, hrank⟩ := exists_single_rank rfl h
      cases heq
      refine .finite hk ?_
      rw [hrank, double_valueAt_widened]

namespace Scalar

variable {scalar : Scalar} {mode : Narrowing} {x y : Double}

/-- What is rounded on the way is a 32-bit number. -/
theorem isSingle_of_widen (h : widen y .float mode = some x) : x.IsSingle := by
  unfold widen narrowToSingle at h
  dsimp only at h
  split_ifs at h
  obtain rfl := Option.some.inj h
  exact Double.isSingle_iff.mpr (Double.toSingle_toSingle y)

/-- A scalar that calls itself a 32-bit number is not rounded, and every other one is. -/
theorem toFloating_float_cases (h : scalar.toFloating .float mode = some x) :
    scalar = .floating .float x ∨ x.IsSingle := by
  unfold toFloating at h
  cases scalar with
  | floating kind y =>
    dsimp only at h
    split_ifs at h with hkind
    · rw [hkind, Option.some.inj h]
      exact .inl rfl
    · exact .inr (isSingle_of_widen h)
  | integral kind n => exact .inr (isSingle_of_widen h)
  | text t =>
    obtain ⟨y, -, hy⟩ := Option.bind_eq_some_iff.mp h
    exact .inr (isSingle_of_widen hy)
  | _ => cases h

/-- Only a box calls itself a 32-bit number. -/
theorem classify_eq_float_iff {s : Store} {v : Value} :
    classify s v = .floating .float x ↔
      ∃ r, v = .object r ∧ s.get? r = some (.numberBox (.floating .float) x) := by
  constructor
  · intro h
    unfold classify at h
    cases v with
    -- A number outside a box is classified as a double or as an integer.
    | number y =>
      unfold ofNumber at h
      dsimp only at h
      split at h
      · cases h
      · cases h
    | integer n =>
      unfold ofInteger at h
      dsimp only at h
      split at h
      · cases h
      · cases h
    | object r =>
      -- A box of another kind keeps the name of that kind.
      dsimp only at h
      split at h
      · rename_i kind y hget
        unfold ofBox at h
        split at h
        · cases h
          exact ⟨r, rfl, hget⟩
        · split at h <;> cases h
      · cases h
      · cases h
    | _ => cases h
  · rintro ⟨r, rfl, hget⟩
    unfold classify
    dsimp only
    rw [hget]
    rfl

end Scalar

/-- A box of a 32-bit number is read as the number in it. -/
theorem Store.read_float_of_box {s : Store} {r : Ref} {x : Double}
    (h : s.get? r = some (.numberBox (.floating .float) x)) (mode : Narrowing) :
    s.read .float (.object r) mode = .ok (some (.number x)) := by
  have hclass := Scalar.classify_eq_float_iff.mpr ⟨r, rfl, h⟩
  have hread := s.read_floating .float (.object r) mode
  rw [readFloating, hclass] at hread
  exact hread

/-- A read of a 32-bit number has an answer, a number or none. It gives a number that is no 32-bit one
exactly if the value is a box of that kind and holds the number, whatever the mode; all other numbers that it
gives are 32-bit ones. -/
theorem float_reads_single (s : Store) (v : Value) (mode : Narrowing) :
    (∃ answer : Option Double, s.read .float v mode = .ok (answer.map .number)) ∧
    ∀ x : Double, s.read .float v mode = .ok (some (.number x)) ∧ ¬ x.IsSingle ↔
      (∃ r, v = .object r ∧ s.get? r = some (.numberBox (.floating .float) x)) ∧ ¬ x.IsSingle := by
  have hread := s.read_floating .float v mode
  refine ⟨⟨_, hread⟩, fun x => and_congr_left fun hx => ⟨fun h => ?_, ?_⟩⟩
  · -- An answer of more than 32 bits was not rounded.
    have hfloat : (Scalar.classify s v).toFloating .float mode = some x := by
      have hanswer := Except.ok.inj (hread.symm.trans h)
      obtain ⟨y, hy, hxy⟩ := Option.map_eq_some_iff.mp hanswer
      rwa [Coerced.number.inj hxy] at hy
    exact Scalar.classify_eq_float_iff.mp ((Scalar.toFloating_float_cases hfloat).resolve_right hx)
  · rintro ⟨r, rfl, hbox⟩
    exact Store.read_float_of_box hbox mode

/-- The double nearest to a tenth. -/
def tenth : Double := .ofRatio false 1 10

/-- A store with a tenth in a box of a 32-bit number. -/
def tenthBox : Store := ⟨#[.numberBox (.floating .float) tenth], 0⟩

/-- A tenth is no 32-bit number. Such a box is read as the tenth all the same, and the tenth itself as the
32-bit number next to it. -/
theorem float_reads_tenth : ¬ tenth.IsSingle ∧
    tenthBox.read .float (.object 0) .strict = .ok (some (.number tenth)) ∧
    tenthBox.read .float (.number tenth) .strict ≠ .ok (some (.number tenth)) := by
  have htenth : ¬ tenth.IsSingle := fun h =>
    absurd (Double.isSingle_iff.mp h) (by decide +kernel)
  obtain ⟨-, hbox⟩ := float_reads_single tenthBox (.object 0) .strict
  obtain ⟨-, hplain⟩ := float_reads_single tenthBox (.number tenth) .strict
  refine ⟨htenth, ((hbox tenth).mpr ⟨⟨0, rfl, rfl⟩, htenth⟩).1, fun h => ?_⟩
  obtain ⟨⟨r, hr, -⟩, -⟩ := (hplain tenth).mp ⟨h, htenth⟩
  cases hr

end TypedReads
