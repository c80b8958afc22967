import TypedReads.Proofs.Adapter.Boxes
import TypedReads.Proofs.Read.Range

/-!
# Native casts

Truncating conversion of a double to an integral kind is the cast of the native types, said in integers
(`Double.CastsTo`): the exact value loses its fraction and is clamped, to 64 bits for the widest kind and to
32 bits for the others, of which the two narrow kinds keep the low bits. The conversion compares doubles,
and the greatest integer of 64 bits is none, but it is clamped where the integral part is
(`Double.saturate_eq_clamped`).

A native value made from a number holds what the number is cast to, and every read of its own kind or a
wider one gives that back, in either mode (`native_casts_exact`).
-/

namespace TypedReads

namespace Double

/-- The integral part of the exact value of a number, clamped to the range of a kind. NaN counts as zero,
and an infinity as beyond the bound on its side. -/
def clamped (x : Double) (kind : IntegralKind) : ℤ :=
  match x with
  | .nan => 0
  | .infinite negative => if negative then kind.least else kind.greatest
  | .finite .. => kind.clamp (truncated x.value)

/-- The integer of a kind that a native cast makes of a number. -/
inductive CastsTo (x : Double) : IntegralKind → ℤ → Prop
  | long : CastsTo x .long (x.clamped .long)
  | int : CastsTo x .int (x.clamped .int)
  | byte {n : ℤ} (h : IntegralKind.byte.WrapsTo (x.clamped .int) n) : CastsTo x .byte n
  | short {n : ℤ} (h : IntegralKind.short.WrapsTo (x.clamped .int) n) : CastsTo x .short n

variable {x : Double} {kind : IntegralKind} {n m : ℤ}

/-- A comparison with the bounds as doubles clamps the exact value. -/
theorem saturate_eq_clamped (x : Double) (kind : IntegralKind) : x.saturate kind = x.clamped kind := by
  cases x with
  | nan => exact saturate_nan kind
  | infinite negative => exact saturate_infinite kind negative
  | finite negative rank => exact saturate_of_isFinite kind rfl

/-- A cast has one outcome. -/
theorem CastsTo.unique (h : x.CastsTo kind n) (h' : x.CastsTo kind m) : n = m := by
  cases h with
  | long =>
    cases h'
    rfl
  | int =>
    cases h'
    rfl
  | byte h =>
    cases h' with
    | byte h' => exact h.unique h'
  | short h =>
    cases h' with
    | short h' => exact h.unique h'

/-- Truncating conversion is a cast. -/
theorem castsTo_of_truncateFloating (h : truncateFloating x kind .truncate = some n) :
    x.CastsTo kind n := by
  rw [truncateFloating_truncate, x.saturate_eq_clamped, x.saturate_eq_clamped] at h
  obtain rfl := Option.some.inj h
  cases kind with
  | long => exact .long
  | byte => exact .byte (IntegralKind.wrapsTo_wrap _ _)
  | short => exact .short (IntegralKind.wrapsTo_wrap _ _)
  | int =>
    -- What was clamped to 32 bits has no other bits to lose.
    have hholds := x.holds_saturate .int
    rw [x.saturate_eq_clamped] at hholds
    rw [if_neg nofun, IntegralKind.wrap_of_holds hholds]
    exact .int

end Double

namespace Native

/-- A value that is made from a number as one of an integral kind. For longs that is a plain integer. -/
inductive Cast (s : Store) (x : Double) : IntegralKind → Value → Prop
  | box {kind : IntegralKind} {r : Ref} (hkind : kind ≠ .long)
      (hr : s.get? r = some (number (.integral kind) x)) : Cast s x kind (.object r)
  | long : Cast s x .long (longOfNumber x)

variable {s : Store} {x : Double} {kind : IntegralKind} {n : ℤ}

/-- A box that is made from a number holds what the number is converted to. -/
theorem exists_number_eq (hkind : kind ≠ .long) (h : truncateFloating x kind .truncate = some n) :
    ∃ y, number (.integral kind) x = .numberBox (.integral kind) y ∧ y.toInt? = some n := by
  have hcast : castIntegral x kind = Double.ofInt n := by
    unfold castIntegral Narrowing.standard
    rw [h]
    rfl
  have hsmall := IntegralKind.natAbs_lt_of_holds hkind (holds_of_truncateFloating h)
  exact ⟨_, congrArg (Object.numberBox (.integral kind)) hcast, Double.toInt?_ofInt hsmall.le⟩

/-- A long that is made from a number is what the number is converted to. -/
theorem longOfNumber_eq (h : truncateFloating x .long .truncate = some n) :
    longOfNumber x = .integer n := by
  unfold longOfNumber Narrowing.standard
  rw [h]
  rfl

/-- A native value counts as an integer of its kind. -/
theorem Cast.classify {v : Value} (hv : Cast s x kind v)
    (h : truncateFloating x kind .truncate = some n) :
    Scalar.classify s v = .integral kind n := by
  have hholds := holds_of_truncateFloating h
  cases hv with
  | box hkind hr =>
    obtain ⟨y, hbox, hy⟩ := exists_number_eq hkind h
    exact Store.classify_small_box (hbox ▸ hr) hy hholds (IntegralKind.natAbs_lt_of_holds hkind hholds)
  | long =>
    rw [longOfNumber_eq h]
    unfold Scalar.classify Scalar.ofInteger
    dsimp only
    rw [if_pos hholds]

/-- A native value is read as the integer that it is, at its own kind and at every wider one. -/
theorem Cast.read {v : Value} (hv : Cast s x kind v) (h : truncateFloating x kind .truncate = some n)
    {kind' : IntegralKind} (hwidth : kind.width ≤ kind'.width) (mode : Narrowing) :
    s.read kind'.target v mode = .ok (some (kind'.answer n)) := by
  have hholds := holds_of_truncateFloating h
  have hwider := IntegralKind.holds_of_width_le hwidth hholds
  rw [Store.read_target, Store.readIntegral, hv.classify h, Scalar.toIntegral_integral hholds,
    narrowIntegral_of_holds hwider]
  rfl

end Native

/-- Truncating conversion of any double to an integral kind is the native cast, in exact integers. The native
value of that kind made from the double holds the very integer, and is read as it at its own kind and at
every wider one, in both modes. -/
theorem native_casts_exact (x : Double) (kind : IntegralKind) :
    ∃ n, truncateFloating x kind .truncate = some n ∧ (∀ m, x.CastsTo kind m ↔ m = n) ∧
      (kind ≠ .long → ∃ y, Native.number (.integral kind) x = .numberBox (.integral kind) y ∧
        y.toInt? = some n) ∧
      (kind = .long → Native.longOfNumber x = .integer n) ∧
      ∀ (s : Store) (v : Value), Native.Cast s x kind v →
        ∀ kind' : IntegralKind, kind.width ≤ kind'.width → ∀ mode,
          s.read kind'.target v mode = .ok (some (kind'.answer n)) := by
  obtain ⟨n, hn⟩ : ∃ n, truncateFloating x kind .truncate = some n :=
    ⟨_, truncateFloating_truncate x kind⟩
  have hcast := Double.castsTo_of_truncateFloating hn
  refine ⟨n, hn, fun m => ⟨fun hm => hm.unique hcast, fun hm => hm ▸ hcast⟩,
    fun hkind => Native.exists_number_eq hkind hn, ?_, fun s v hv kind' hwidth mode => hv.read hn hwidth mode⟩
  rintro rfl
  exact Native.longOfNumber_eq hn

/-- A box of the byte made from `300.7`. -/
def byteStore : Store := (Store.empty.alloc (Native.number (.integral .byte) (.ofRatio false 3007 10))).2

/-- The number `300.7` is cast to the byte `44`, which a strict read as an integer gives back. The double
`2 ^ 63` is cast to the long next below it. -/
theorem native_casts_of_byte_and_edge :
    (Double.ofRatio false 3007 10).CastsTo .byte 44 ∧
    Native.Cast byteStore (.ofRatio false 3007 10) .byte (.object 0) ∧
    byteStore.read .integer (.object 0) .strict = .ok (some (.number (.ofInt 44))) ∧
    Native.longOfNumber (.ofInt (2 ^ 63)) = .integer (2 ^ 63 - 1) := by
  have hbox : Native.Cast byteStore (.ofRatio false 3007 10) .byte (.object 0) := .box (by decide) rfl
  obtain ⟨n, hn, hcasts, -, -, hread⟩ := native_casts_exact (.ofRatio false 3007 10) .byte
  obtain ⟨m, hm, -, -, hlong, -⟩ := native_casts_exact (.ofInt (2 ^ 63)) .long
  have hbyte : truncateFloating (.ofRatio false 3007 10) .byte .truncate = some 44 := by decide +kernel
  have hedge : truncateFloating (.ofInt (2 ^ 63)) .long .truncate = some (2 ^ 63 - 1) := by
    decide +kernel
  obtain rfl := Option.some.inj (hbyte.symm.trans hn)
  obtain rfl := Option.some.inj (hedge.symm.trans hm)
  exact ⟨(hcasts 44).mpr rfl, hbox, hread _ _ hbox .int (by decide) .strict, hlong rfl⟩

end TypedReads
