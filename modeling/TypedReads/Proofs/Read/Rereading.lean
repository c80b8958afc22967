import TypedReads.Proofs.Json.Reading
import TypedReads.Proofs.Number.Clamp
import TypedReads.Proofs.Read.Strict
import TypedReads.Proofs.Value.Represented

/-!
# Reads of reread values

A value that was read, written and read again answers every typed read as before, with one exception
(`Store.read_reread`). A whole number of at most 64 bits that is not safe, written in the document with
a point or an exponent, is a double first and the exact integer its text spells afterwards. As a double
it is clamped before its low bits are taken, and as an integer it is not: `IntegralKind.wideRead` is
what an integral read makes of either.
-/

namespace TypedReads

/-- What an integral read makes of an integer of at most 64 bits that is not safe: the integer itself
as one of 64 bits, and the low bits of what it is clamped to as one of fewer. -/
def IntegralKind.wideRead (kind : IntegralKind) (mode : Narrowing) (n clamped : ℤ) : Option ℤ :=
  match kind, mode with
  | .long, _ => some n
  | _, .strict => none
  | kind, .truncate => some (kind.wrap clamped)

/-- An integer beyond 32 bits, clamped to them. -/
def clampedInt (n : ℤ) : ℤ := if n < 0 then IntegralKind.int.least else IntegralKind.int.greatest

namespace Store

variable {s s' : Store}

/-- Values with the same scalar reading are read alike. -/
theorem read_of_classify {c : Scalar} {v v' : Value} (h : Scalar.classify s v = c)
    (h' : Scalar.classify s' v' = c) (hscalar : ∀ w, c ≠ .other w) (target : Target)
    (mode : Narrowing) : s'.read target v' mode = s.read target v mode := by
  have hstring : s'.readString v' = s.readString v := by
    unfold readString
    rw [h, h']
    cases c with
    | other w => exact absurd rfl (hscalar w)
    | floating kind x => cases kind <;> rfl
    | _ => rfl
  unfold read readIntegral readFloating readChar readBoolean
  rw [h, h', hstring]

/-- A value without a scalar reading is read as nothing but a text. -/
theorem read_other {v : Value} (h : Scalar.classify s v = .other v) (target : Target)
    (mode : Narrowing) :
    s.read target v mode =
      if target = .string then (s.otherText v).map fun t => some (.text t) else .ok none := by
  unfold read readIntegral readFloating readChar readBoolean readString
  rw [h]
  cases target with
  | string =>
    rw [if_pos rfl]
    dsimp only [scalarText]
    cases s.otherText v <;> rfl
  | _ => rfl

section Wide

/-- A number that is not safe is a double. -/
theorem classify_wide {x : Double} (h : x.Wide) :
    Scalar.classify s (.number x) = .floating .double x := by
  obtain ⟨n, hn, hlow, -⟩ := h
  have hsafe : x.safeInt? = none := by
    unfold Double.safeInt?
    rw [hn, Option.filter_some]
    simp only [Double.safe_iff]
    rw [decide_eq_false (not_lt.mpr hlow)]
    rfl
  unfold Scalar.classify Scalar.ofNumber
  dsimp only
  rw [hsafe]

/-- A kept integer is one of 64 bits. -/
theorem classify_kept {i : ℤ} (h : Json.KeptInt i) :
    Scalar.classify s (.integer i) = .integral .long i := by
  unfold Scalar.classify Scalar.ofInteger
  dsimp only
  rw [if_pos h.2]

/-- No kind but the widest holds an integer that is not safe. -/
theorem holds_wide {n : ℤ} (hlow : 2 ^ 53 ≤ n.natAbs) (hlong : IntegralKind.long.holds n = true)
    (kind : IntegralKind) : kind.holds n = decide (kind = .long) := by
  cases kind with
  | long => exact hlong
  | _ =>
    refine Bool.eq_false_iff.mpr fun hholds => ?_
    rw [IntegralKind.holds_iff] at hholds
    simp only [IntegralKind.least, IntegralKind.greatest, IntegralKind.width] at hholds
    omega

/-- A double that is a whole number of at most 64 bits is clamped before its low bits are taken. -/
theorem truncateFloating_wide {x : Double} {n : ℤ} (hn : x.toInt? = some n)
    (hlow : 2 ^ 53 ≤ n.natAbs) (hhigh : n.natAbs < 2 ^ 63) (kind : IntegralKind)
    (mode : Narrowing) : truncateFloating x kind mode = kind.wideRead mode n (clampedInt n) := by
  cases mode with
  | strict =>
    -- Only the widest kind has room for it.
    have hlong := (IntegralKind.holds_long_iff (by omega)).mpr hhigh
    have hholds := holds_wide hlow hlong kind
    rw [truncateFloating_strict_of_toInt? hn, kind.exact_eq, hholds]
    cases kind <;> rfl
  | truncate =>
    -- The narrower kinds take the low bits of what 32 bits clamp it to.
    have hint := Double.saturate_int hn (by omega)
    unfold truncateFloating
    cases kind with
    | long =>
      have hlong := (IntegralKind.holds_long_iff (by omega)).mpr hhigh
      rw [Double.saturate_of_toInt? .long hn, IntegralKind.clamp_of_holds hlong]
      rfl
    | _ => exact congrArg (fun n => some (IntegralKind.wrap _ n)) hint

/-- A kept integer is narrowed to its low bits. -/
theorem toIntegral_kept {i : ℤ} (h : Json.KeptInt i) (kind : IntegralKind) (mode : Narrowing) :
    (Scalar.integral .long i).toIntegral kind mode = kind.wideRead mode i i := by
  have hlow : 2 ^ 53 ≤ i.natAbs := not_lt.mp fun hlt => h.1 ((Double.safe_iff i).mpr hlt)
  have hholds := holds_wide hlow h.2 kind
  cases kind with
  | long => rfl
  | _ =>
    dsimp only [Scalar.toIntegral]
    rw [if_neg (by decide), narrowIntegral, hholds]
    cases mode <;> rfl

end Wide

section Represented

variable {bound bound' : Ref} {v v' : Value}

/-- A kept integer that a number was reread as. -/
theorem keptInt_of_canonical {x : Double} {i : ℤ} (h : x.canonical = .integer i) :
    Json.KeptInt i := by
  cases x with
  | nan => cases h
  | infinite negative => cases h
  | finite negative rank =>
    have hkept := Json.kept_numeral (Double.numeral negative rank)
    rw [Double.toJson_numeral, h] at hkept
    exact hkept

/-- The text of a container that represents a normal, finite and kept value. -/
theorem otherText_represents {j : Json} (h : s.Represents bound v j) (hnormal : j.Normal)
    (hfinite : j.Finite) : s.otherText v = .ok (j.write 0) := by
  have hencode : s.encode v = .ok j :=
    encodeWithin_represents h hnormal hfinite fun a ha => absurd ha List.not_mem_nil
  unfold otherText encodeLine toJson
  rw [hencode]
  rfl

/-- A wide number is reread as an integer, and answers as such. -/
theorem read_wide {x : Double} {n : ℤ} (hn : x.toInt? = some n) (hlow : 2 ^ 53 ≤ n.natAbs)
    (hhigh : n.natAbs < 2 ^ 63) (target : Target) (mode : Narrowing) :
    (∀ kind : IntegralKind, target = kind.target →
      s.read target (.number x) mode =
          .ok ((kind.wideRead mode n (clampedInt n)).map kind.answer) ∧
        s'.read target (.integer x.toText.spelled) mode =
          .ok ((kind.wideRead mode x.toText.spelled x.toText.spelled).map kind.answer)) ∧
      ((∀ kind : IntegralKind, target ≠ kind.target) →
        s'.read target (.integer x.toText.spelled) mode = s.read target (.number x) mode) := by
  -- What is left of the double after it is read again is the integer that its text spells.
  have hwide : x.Wide := ⟨n, hn, hlow, hhigh⟩
  have hread := Double.canonical_of_wide hwide
  obtain ⟨hdouble, htext⟩ := Double.of_canonical_integer hread
  have hkept := keptInt_of_canonical hread
  generalize x.toText.spelled = i at *
  have hbefore : Scalar.classify s (.number x) = .floating .double x := classify_wide hwide
  have hafter : Scalar.classify s' (.integer i) = .integral .long i := classify_kept hkept
  constructor
  · -- Integral reads narrow the double one way and the integer another.
    rintro kind rfl
    rw [read_target, read_target]
    unfold readIntegral
    rw [hbefore, hafter, toIntegral_kept hkept]
    have hnarrow : (Scalar.floating .double x).toIntegral kind mode =
        kind.wideRead mode n (clampedInt n) := truncateFloating_wide hn hlow hhigh kind mode
    rw [hnarrow]
    exact ⟨rfl, rfl⟩
  · -- Both are the same number and have the same text.
    intro hother
    have hfloating : ∀ kind, (Scalar.integral .long i).toFloating kind mode =
        (Scalar.floating .double x).toFloating kind mode := by
      intro kind
      change Scalar.widen (Double.ofInt i) kind mode = _
      rw [hdouble]
      cases kind <;> rfl
    have hstring : s'.readString (.integer i) = s.readString (.number x) := by
      unfold readString
      rw [hbefore, hafter]
      exact congrArg (fun t => Except.ok (some t)) htext
    unfold read readIntegral readFloating readChar readBoolean
    rw [hbefore, hafter, hstring]
    -- Of the targets that are no integral kind, only the floating ones look at the number.
    cases target with
    | byte => exact absurd rfl (hother .byte)
    | short => exact absurd rfl (hother .short)
    | integer => exact absurd rfl (hother .int)
    | long => exact absurd rfl (hother .long)
    | float => exact congrArg (fun x => Except.ok (Option.map Coerced.number x)) (hfloating .float)
    | double =>
      exact congrArg (fun x => Except.ok (Option.map Coerced.number x)) (hfloating .double)
    | _ => rfl

/-- A container is no scalar. -/
theorem classify_container {r : Ref} {o : Object} (hr : s.get? r = some o)
    (ho : ∀ kind x, o ≠ .numberBox kind x) (ho' : ∀ t, o ≠ .charBox t) :
    Scalar.classify s (.object r) = .other (.object r) := by
  unfold Scalar.classify
  dsimp only
  rw [hr]
  cases o with
  | numberBox kind x => exact absurd rfl (ho kind x)
  | charBox t => exact absurd rfl (ho' t)
  | _ => rfl

/-- A reread container is read as before. -/
theorem read_container {j : Json} (h : s.Represents bound v j)
    (h' : s'.Represents bound' v' j.reread) (hv : Scalar.classify s v = .other v)
    (hv' : Scalar.classify s' v' = .other v') (hnormal : j.Normal) (hfinite : j.Finite)
    (hkept : j.Kept) (target : Target) (mode : Narrowing) :
    s'.read target v' mode = s.read target v mode := by
  have htext : s'.otherText v' = s.otherText v := by
    rw [otherText_represents h hnormal hfinite,
      otherText_represents h' (Json.reread_normal hnormal) (Json.reread_finite hkept hfinite)]
    exact congrArg Except.ok (Json.writeAt_reread 0 0 hkept)
  rw [read_other hv, read_other hv', htext]

/-- A number without the sign of zero has the same scalar reading. -/
theorem ofNumber_withoutNegativeZero (x : Double) :
    Scalar.ofNumber x.withoutNegativeZero = Scalar.ofNumber x := by
  unfold Double.withoutNegativeZero
  split_ifs with hzero
  · subst hzero
    unfold Scalar.ofNumber Double.safeInt?
    rw [Double.toInt?_zero, Double.toInt?_zero]
    rfl
  · rfl

/-- A number has a scalar reading. -/
theorem ofNumber_ne_other (x : Double) (w : Value) : Scalar.ofNumber x ≠ .other w := by
  unfold Scalar.ofNumber
  split <;> nofun

/-- A reread value is read as before, unless it was a wide number. -/
theorem read_reread {j : Json} (h : s.Represents bound v j) (h' : s'.Represents bound' v' j.reread)
    (hnormal : j.Normal) (hfinite : j.Finite) (hkept : j.Kept) (target : Target) (mode : Narrowing)
    (hwide : ∀ x, v = .number x → ¬ x.Wide) : s'.read target v' mode = s.read target v mode := by
  cases h with
  | null =>
    cases h'
    exact read_of_classify (c := .absent) rfl rfl nofun target mode
  | bool b =>
    cases h'
    exact read_of_classify (c := .bool b) rfl rfl nofun target mode
  | text t =>
    cases h'
    exact read_of_classify (c := .text t) rfl rfl nofun target mode
  | integer n =>
    -- An exact integer of a document is one that the reader keeps.
    rw [Json.reread_of_keptInt hkept] at h'
    cases h'
    exact read_of_classify (classify_kept hkept) (classify_kept hkept) nofun target mode
  | number x =>
    -- At most the sign of zero is lost, which no read sees.
    rw [Json.reread, Double.canonical_of_not_wide (hwide x rfl)] at h'
    cases h'
    have hscalar : Scalar.classify s' (.number x.withoutNegativeZero) = .ofNumber x :=
      ofNumber_withoutNegativeZero x
    exact read_of_classify (c := .ofNumber x) rfl hscalar (ofNumber_ne_other x) target mode
  | array hlt hr hitems =>
    have hvs := Represents.array hlt hr hitems
    cases h' with
    | array hlt' hr' hitems' =>
      exact read_container hvs (.array hlt' hr' hitems')
        (classify_container hr (by nofun) (by nofun))
        (classify_container hr' (by nofun) (by nofun)) hnormal hfinite hkept target mode
  | object hlt hr hmembers =>
    have hes := Represents.object hlt hr hmembers
    cases h' with
    | object hlt' hr' hmembers' =>
      exact read_container hes (.object hlt' hr' hmembers')
        (classify_container hr (by nofun) (by nofun))
        (classify_container hr' (by nofun) (by nofun)) hnormal hfinite hkept target mode

end Represented

end Store

end TypedReads
