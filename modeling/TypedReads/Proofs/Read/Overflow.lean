import TypedReads.Proofs.Adapter.Overflow
import TypedReads.Proofs.Number.Overflow
import TypedReads.Proofs.Number.Single

/-!
# Floating reads of finite numbers

A finite number that is stored, an integer of any size, a text that spells a number and a numeral of a
document each stand for a finite number (`Store.FiniteSource`), and a floating read of one starts from the
double nearest to that number (`Store.FiniteSource.rounds`). The strict mode only looks at what becomes of
this double when it is rounded to 32 bits. So a number past the 32-bit ones is absent, but one past the
doubles is infinite before anything is checked, and a strict read gives the infinity for it
(`read_floating_strict`).
-/

namespace TypedReads

namespace Numeral

/-- The number that a numeral spells. -/
def value (n : Numeral) : ℚ := if n.negative then -n.magnitude else n.magnitude

/-- A magnitude is not negative. -/
theorem magnitude_nonneg (n : Numeral) : 0 ≤ n.magnitude := by
  unfold magnitude
  positivity

/-- The size of a numeral is its magnitude. -/
theorem abs_value (n : Numeral) : |n.value| = n.magnitude := by
  unfold value
  split_ifs
  · rw [abs_neg, abs_of_nonneg n.magnitude_nonneg]
  · rw [abs_of_nonneg n.magnitude_nonneg]

/-- The sign of a numeral is that of its number, but for zero. -/
theorem negative_eq {n : Numeral} (h : n.value ≠ 0) : n.negative = decide (n.value < 0) := by
  have hpos := abs_pos.mpr h
  rw [n.abs_value] at hpos
  unfold value
  cases n.negative with
  | false => exact (decide_eq_false (by simpa using n.magnitude_nonneg)).symm
  | true => exact (decide_eq_true (by simpa using hpos)).symm

/-- An integer literal spells its integer. -/
theorem value_of_toInt? {n : Numeral} {i : ℤ} (h : n.toInt? = some i) : n.value = i := by
  unfold toInt? at h
  by_cases hnone : n.fraction.isNone ∧ n.exponent.isNone
  · rw [if_pos hnone, Option.some.injEq] at h
    rw [Option.isNone_iff_eq_none, Option.isNone_iff_eq_none] at hnone
    have hmagnitude : n.magnitude = ofDigits n.whole := by
      unfold magnitude
      simp [hnone, ofDigits]
    rw [← h, value, hmagnitude]
    cases n.negative <;> simp
  · rw [if_neg hnone] at h
    cases h

end Numeral

namespace Double

/-- A number and a double nearest to it, of its sign unless that is a zero. -/
inductive Rounds (q : ℚ) : Double → Prop
  | finite {negative : Bool} {rank : Fin BinaryFormat.double.ranks}
      (h : BinaryFormat.double.Nearest |q| rank) (hsign : rank.val ≠ 0 → negative = decide (q < 0)) :
      Rounds q (.finite negative rank)
  | infinite (h : 2 ^ 1024 - 2 ^ 970 ≤ |q|) : Rounds q (.infinite (decide (q < 0)))

variable {q : ℚ} {x y : Double}

/-- The double nearest to the size, with the sign, rounds the number. -/
theorem rounds_of_nearestTo {negative : Bool} (h : NearestTo negative |q| x)
    (hsign : q ≠ 0 → negative = decide (q < 0)) : Rounds q x := by
  cases h with
  | @finite rank h =>
    refine .finite h fun hrank => hsign ?_
    rintro rfl
    -- Zero is nearest to itself.
    rw [abs_zero] at h
    have hzero := BinaryFormat.double.rank_nearest (by decide) 0 Nat.one_pos
    rw [Nat.cast_zero, zero_div,
      BinaryFormat.double.rank_zero BinaryFormat.double_precision_pos Nat.one_pos] at hzero
    exact hrank (h.unique BinaryFormat.double_precision_pos hzero)
  | infinite hlarge h =>
    have hinfinite : NearestTo negative |q| (.infinite negative) := .infinite hlarge h
    have hover := not_lt.mp (mt hinfinite.isFinite_iff.mpr Bool.false_ne_true)
    have hpos : (0 : ℚ) < 2 ^ 1024 - 2 ^ 970 :=
      sub_pos.mpr (pow_lt_pow_right₀ one_lt_two (by decide))
    have hne : q ≠ 0 := abs_pos.mp (hpos.trans_le hover)
    rw [hsign hne]
    exact .infinite hover

/-- Either zero will do. -/
theorem Rounds.congr (h : Rounds q x) (hxy : y.withoutNegativeZero = x.withoutNegativeZero) :
    Rounds q y := by
  unfold withoutNegativeZero at hxy
  split_ifs at hxy with hy hx hx
  · rw [hy, ← hx]
    exact h
  · rw [hy]
    rw [← hxy] at h
    cases h with
    | finite h => exact .finite h fun hne => absurd rfl hne
  · rw [hxy]
    rw [hx] at h
    cases h with
    | finite h => exact .finite h fun hne => absurd rfl hne
  · rw [hxy]
    exact h

/-- A double nearest to a number is finite exactly if the number is below `2 ^ 1024 - 2 ^ 970`. -/
theorem Rounds.isFinite_iff (h : Rounds q x) : x.isFinite = true ↔ |q| < 2 ^ 1024 - 2 ^ 970 := by
  cases h with
  | @finite negative rank h =>
    have hfinite : NearestTo negative |q| (.finite negative rank) := .finite h
    exact hfinite.isFinite_iff
  | infinite h => exact iff_of_false Bool.false_ne_true h.not_gt

/-- From half a step above the greatest double on numbers round to an infinity. -/
theorem Rounds.eq_infinite (h : Rounds q x) (hq : 2 ^ 1024 - 2 ^ 970 ≤ |q|) :
    x = .infinite (decide (q < 0)) := by
  have hfinite := mt h.isFinite_iff.mp hq.not_gt
  cases h with
  | finite => exact absurd rfl hfinite
  | infinite => rfl

/-- A finite double is nearest to its value. -/
theorem rounds_value (h : x.isFinite = true) : Rounds x.value x := by
  cases x with
  | nan => cases h
  | infinite negative => cases h
  | finite negative rank =>
    refine rounds_of_nearestTo (nearestTo_abs_value negative rank) fun hne => ?_
    have hpos := abs_pos.mpr hne
    rw [abs_value] at hpos
    cases negative with
    | false => exact (decide_eq_false hpos.not_gt).symm
    | true => exact (decide_eq_true (neg_neg_of_pos hpos)).symm

/-- The double of an integer rounds it. -/
theorem rounds_ofInt (n : ℤ) : Rounds n (ofInt n) := by
  have hnearest := nearestTo_ofInt n
  rw [Nat.cast_natAbs, Int.cast_abs] at hnearest
  refine rounds_of_nearestTo hnearest fun _ => decide_eq_decide.mpr ?_
  exact_mod_cast Iff.rfl

/-- The double of a numeral rounds it. -/
theorem rounds_toDouble (n : Numeral) : Rounds n.value n.toDouble := by
  have hnearest := n.nearestTo_toDouble
  rw [← n.abs_value] at hnearest
  exact rounds_of_nearestTo hnearest Numeral.negative_eq

end Double

namespace Store

/-- A stored value that stands for a finite number: a number, an integer of any size, a text with a
numeral behind an optional sign, or what is stored for a numeral of a document. -/
inductive FiniteSource (s : Store) : Value → ℚ → Prop
  | number {x : Double} (hx : x.isFinite = true) : FiniteSource s (.number x) x.value
  | integer (n : ℤ) : FiniteSource s (.integer n) n
  | text {t rest : Text} {negative : Bool} {numeral : Numeral}
      (hsign : t.trim.scanSign = (negative, rest)) (hnumeral : rest.decimal? negative = some numeral) :
      FiniteSource s (.text t) numeral.value
  | literal {bound : Ref} {v : Value} {numeral : Numeral}
      (h : s.Represents bound v numeral.toJson) : FiniteSource s v numeral.value

variable {s : Store} {v : Value} {q : ℚ}

/-- A floating read of a number starts from it, or from the integer that it is. -/
theorem readFloating_number (s : Store) (x : Double) :
    ∃ y, y.withoutNegativeZero = x.withoutNegativeZero ∧ ∀ kind mode,
      s.readFloating kind (.number x) mode = Scalar.widen y kind mode := by
  unfold readFloating Scalar.classify Scalar.ofNumber
  dsimp only
  cases hsafe : x.safeInt? with
  | none =>
    refine ⟨x, rfl, fun kind mode => ?_⟩
    cases kind <;> rfl
  | some n =>
    obtain ⟨hint, hbound⟩ := toInt?_of_safeInt? hsafe
    have hsmall := (Double.safe_iff n).mp hbound
    exact ⟨.ofInt n, Double.withoutNegativeZero_ofInt hint hsmall.le, fun _ _ => rfl⟩

/-- A floating read of an integer starts from the double nearest to it. -/
theorem readFloating_integer (s : Store) (n : ℤ) (kind : FloatingKind) (mode : Narrowing) :
    s.readFloating kind (.integer n) mode = Scalar.widen (.ofInt n) kind mode := by
  unfold readFloating Scalar.classify Scalar.ofInteger
  dsimp only
  split_ifs with hlong
  · rfl
  · cases kind <;> rfl

/-- A text with a numeral is a floating-point literal. -/
theorem floating?_of_decimal? {t rest : Text} {negative : Bool} {numeral : Numeral}
    (hsign : t.trim.scanSign = (negative, rest)) (hnumeral : rest.decimal? negative = some numeral) :
    t.floating? = some numeral.toDouble := by
  -- Neither of the two words has a digit.
  have hnan : rest ≠ units "NaN" := by
    rintro rfl
    cases negative <;> cases hnumeral
  have hinfinity : rest ≠ units "Infinity" := by
    rintro rfl
    cases negative <;> cases hnumeral
  unfold Text.floating?
  rw [hsign]
  dsimp only
  rw [if_neg hnan, if_neg hinfinity, hnumeral]
  rfl

/-- A floating read of what stands for a finite number starts from the double nearest to it. -/
theorem FiniteSource.rounds (h : s.FiniteSource v q) : ∃ x : Double, x.Rounds q ∧
    ∀ kind mode, s.readFloating kind v mode = Scalar.widen x kind mode := by
  cases h with
  | @number x hx =>
    obtain ⟨y, hy, hread⟩ := s.readFloating_number x
    exact ⟨y, (Double.rounds_value hx).congr hy, hread⟩
  | integer n => exact ⟨_, Double.rounds_ofInt n, s.readFloating_integer n⟩
  | text hsign hnumeral =>
    refine ⟨_, Double.rounds_toDouble _, fun kind mode => ?_⟩
    unfold readFloating Scalar.classify Scalar.toFloating
    dsimp only
    rw [floating?_of_decimal? hsign hnumeral, Option.bind_some]
  | @literal bound v numeral h =>
    -- A literal is stored as an integer, or as the double nearest to it.
    unfold Numeral.toJson at h
    split at h
    · rename_i i hi
      rw [Numeral.value_of_toInt? hi]
      split_ifs at h with hstored
      · cases h
        obtain ⟨y, hy, hread⟩ := s.readFloating_number numeral.toDouble
        rw [← Numeral.value_of_toInt? hi]
        exact ⟨y, (Double.rounds_toDouble numeral).congr hy, hread⟩
      · cases h
        exact ⟨_, Double.rounds_ofInt i, s.readFloating_integer i⟩
    · cases h
      obtain ⟨y, hy, hread⟩ := s.readFloating_number numeral.toDouble
      exact ⟨y, (Double.rounds_toDouble numeral).congr hy, hread⟩

/-- What stands for a number past the doubles is read as an infinity, also in strict mode. -/
theorem FiniteSource.read_infinite (h : s.FiniteSource v q) (hq : 2 ^ 1024 - 2 ^ 970 ≤ |q|)
    (kind : FloatingKind) :
    s.read kind.target v .strict = .ok (some (.number (.infinite (decide (q < 0))))) := by
  obtain ⟨x, hx, hread⟩ := h.rounds
  rw [s.read_floating, hread, hx.eq_infinite hq]
  cases kind <;> rfl

/-- What stands for a number among the doubles is read as the nearest double. A strict read of a 32-bit
number is that double rounded again, or absent if this overflows. -/
theorem FiniteSource.read_finite (h : s.FiniteSource v q) (hq : |q| < 2 ^ 1024 - 2 ^ 970) :
    ∃ x : Double, x.isFinite = true ∧ x.Rounds q ∧
      s.read .double v .strict = .ok (some (.number x)) ∧
      (|x.value| < 2 ^ 128 - 2 ^ 103 → x.toSingle.isFinite = true ∧
        s.read .float v .strict = .ok (some (.number x.toSingle))) ∧
      (2 ^ 128 - 2 ^ 103 ≤ |x.value| → s.read .float v .strict = .ok none) := by
  obtain ⟨x, hx, hread⟩ := h.rounds
  have hfinite := hx.isFinite_iff.mpr hq
  have hsingle := Double.isFinite_toSingle_iff hfinite
  have hdouble := s.read_floating .double v .strict
  have hfloat := s.read_floating .float v .strict
  rw [hread] at hdouble hfloat
  unfold Scalar.widen narrowToSingle at hfloat
  refine ⟨x, hfinite, hx, hdouble, fun hlt => ?_, fun hge => ?_⟩
  · have hkept := hsingle.mpr hlt
    rw [if_neg (fun hcon => hcon.2.2 hkept)] at hfloat
    exact ⟨hkept, hfloat⟩
  · have hlost := mt hsingle.mp hge.not_gt
    rw [if_pos ⟨rfl, hfinite, hlost⟩] at hfloat
    exact hfloat

/-- A floating-point literal other than the two words stands for a finite number. -/
theorem exists_finiteSource_of_floating? {t : Text} {x : Double} (h : t.floating? = some x)
    (hnan : t.trim.scanSign.2 ≠ units "NaN") (hinfinity : t.trim.scanSign.2 ≠ units "Infinity") :
    ∃ q, s.FiniteSource (.text t) q := by
  unfold Text.floating? at h
  obtain ⟨negative, rest, hsign⟩ : ∃ negative rest, t.trim.scanSign = (negative, rest) := ⟨_, _, rfl⟩
  rw [hsign] at h hnan hinfinity
  dsimp only at h hnan hinfinity
  rw [if_neg hnan, if_neg hinfinity, Option.map_eq_some_iff] at h
  obtain ⟨numeral, hnumeral, -⟩ := h
  exact ⟨_, .text hsign hnumeral⟩

/-- The last numeral of a document under a key stands for its number. -/
theorem Opened.exists_finiteSource {a : Adapter} {members : List (Text × Tree)}
    (h : s.Opened a (Entries.ofPairs (Json.normalizeMembers (Tree.toJsonMembers members)))) {key : Text}
    {numeral : Numeral} (hlast : LastMember members key (.number numeral)) :
    ∃ v, s.FiniteSource v numeral.value ∧
      ∀ target, a.read s target key = s.read target v a.narrowing := by
  obtain ⟨v, hv, hrep⟩ := Adapter.get?_opened h (Document.get?_of_lastMember hlast)
  rw [Tree.toJson, numeral.normalize_toJson] at hrep
  exact ⟨v, .literal hrep, read_of_entry hv⟩

end Store

/-- A strict floating read of what stands for a finite number is infinite exactly for a number of
`2 ^ 1024 - 2 ^ 970` or more, for which both reads give the infinity of its sign. Below that a double is the
nearest one, and a 32-bit number is absent if that overflows. No stored number is so great; but an integer,
a text and a numeral of a document may be. -/
theorem read_floating_strict (s : Store) :
    (∀ (v : Value) (q : ℚ), s.FiniteSource v q →
      (2 ^ 1024 - 2 ^ 970 ≤ |q| → ∀ kind : FloatingKind,
        s.read kind.target v .strict = .ok (some (.number (.infinite (decide (q < 0)))))) ∧
      (|q| < 2 ^ 1024 - 2 ^ 970 → ∃ x : Double, x.isFinite = true ∧ x.Rounds q ∧
        s.read .double v .strict = .ok (some (.number x)) ∧
        (|x.value| < 2 ^ 128 - 2 ^ 103 → x.toSingle.isFinite = true ∧
          s.read .float v .strict = .ok (some (.number x.toSingle))) ∧
        (2 ^ 128 - 2 ^ 103 ≤ |x.value| → s.read .float v .strict = .ok none))) ∧
    (∀ x : Double, x.isFinite = true → |x.value| < 2 ^ 1024 - 2 ^ 970) ∧
    (∀ (t : Text) (x : Double), t.floating? = some x →
      t.trim.scanSign.2 ≠ units "NaN" → t.trim.scanSign.2 ≠ units "Infinity" →
      ∃ q, s.FiniteSource (.text t) q) ∧
    (∀ (t : Text) (r : Ref) (s' : Store) (a : Adapter), s.openDocument t .strict = .ok (r, s') →
      s'.adapter? r = some a →
      (∃ members, DocumentText t (.object members)) ∧
      ∀ members, DocumentText t (.object members) →
        ∀ key numeral, LastMember members key (.number numeral) →
          ∃ v, s'.FiniteSource v numeral.value ∧
            ∀ target, a.read s' target key = s'.read target v .strict) := by
  refine ⟨?_, ?_, ?_, ?_⟩
  -- The reads on either side of the bound, then who stands for a finite number at all.
  · exact fun v q h => ⟨fun hq kind => h.read_infinite hq kind, h.read_finite⟩
  · exact fun x hx => (Double.rounds_value hx).isFinite_iff.mp hx
  · exact fun t x h => Store.exists_finiteSource_of_floating? h
  · intro t r s' a hopen ha
    obtain ⟨hmode, htext, hopened⟩ := Store.opened_of_text hopen ha
    refine ⟨htext, fun members hmembers key numeral hlast => ?_⟩
    have hsource := (hopened members hmembers).exists_finiteSource hlast
    rwa [hmode] at hsource

/-- A power of ten past the doubles, with the sign of its numeral. -/
theorem Numeral.overflow_power (negative : Bool) {k : ℤ} (hk : 400 ≤ k) :
    2 ^ 1024 - 2 ^ 970 ≤ |value ⟨negative, [1], none, some k⟩| ∧
      decide (value ⟨negative, [1], none, some k⟩ < 0) = negative := by
  have hmagnitude : magnitude ⟨negative, [1], none, some k⟩ = 10 ^ k := by
    unfold magnitude
    simp [ofDigits]
  have hpower : (2 : ℚ) ^ 1024 ≤ 10 ^ 400 := by
    exact_mod_cast (by decide +kernel : 2 ^ 1024 ≤ 10 ^ 400)
  have hpos : 0 < |value ⟨negative, [1], none, some k⟩| := by
    rw [abs_value, hmagnitude]
    positivity
  refine ⟨?_, (negative_eq (abs_pos.mp hpos)).symm⟩
  rw [abs_value, hmagnitude]
  calc (2 : ℚ) ^ 1024 - 2 ^ 970 ≤ 2 ^ 1024 := sub_le_self _ (by positivity)
    _ ≤ 10 ^ 400 := hpower
    _ = 10 ^ (400 : ℤ) := (zpow_natCast _ _).symm
    _ ≤ 10 ^ k := zpow_le_zpow_right₀ (by norm_num) hk

/-- In strict mode a number past the doubles is read as an infinity, be it an integer, a text or a numeral
of a document; and one past the 32-bit numbers is absent. -/
theorem read_floating_strict_past_doubles :
    Store.empty.read .double (.integer (2 ^ 1024)) .strict = .ok (some (.number (.infinite false))) ∧
    Store.empty.read .float (.text (units " +1e999 ")) .strict =
      .ok (some (.number (.infinite false))) ∧
    (∃ r s a, Store.empty.openDocument overflowingDocument .strict = .ok (r, s) ∧
      s.adapter? r = some a ∧
      a.read s .double (units "a") = .ok (some (.number (.infinite true)))) ∧
    Store.empty.read .float (.integer (2 ^ 128)) .strict = .ok none := by
  obtain ⟨hread, -, -, hdocument⟩ := read_floating_strict Store.empty
  refine ⟨?_, ?_, ?_, ?_⟩
  -- An exact integer.
  · have hpos : (0 : ℚ) < (2 ^ 1024 : ℤ) := by positivity
    have hover : (2 : ℚ) ^ 1024 - 2 ^ 970 ≤ |((2 ^ 1024 : ℤ) : ℚ)| := by
      rw [abs_of_pos hpos, Int.cast_pow, Int.cast_ofNat]
      exact sub_le_self _ (by positivity)
    have hinfinite := (hread _ _ (.integer _)).1 hover .double
    rwa [decide_eq_false hpos.not_gt] at hinfinite
  -- A text, with blanks around it.
  · obtain ⟨hover, hsign⟩ := Numeral.overflow_power false (k := 999) (by decide)
    have hscan : (units " +1e999 ").trim.scanSign = (false, units "1e999") := by decide
    have hdecimal : Text.decimal? false (units "1e999") = some ⟨false, [1], none, some 999⟩ := by decide
    have hinfinite := (hread _ _ (.text hscan hdecimal)).1 hover .float
    rwa [hsign] at hinfinite
  -- A numeral of a document.
  · obtain ⟨r, s, a, hopen, ha, -⟩ :=
      Store.empty.openDocument_ok (Document.entries_of_text overflowingDocument_text) .strict
    have hlast : LastMember [(units "a", .number overflowingNumeral)] (units "a")
        (.number overflowingNumeral) := ⟨[], [], rfl, fun e he => absurd he List.not_mem_nil⟩
    obtain ⟨-, hsources⟩ := hdocument _ _ _ _ hopen ha
    obtain ⟨v, hsource, hv⟩ := hsources _ overflowingDocument_text _ _ hlast
    obtain ⟨hover, hsign⟩ := Numeral.overflow_power true (k := 400) (by decide)
    have hinfinite := ((read_floating_strict s).1 _ _ hsource).1 hover .double
    rw [overflowingNumeral, hsign] at hinfinite
    exact ⟨r, s, a, hopen, ha, (hv .double).trans hinfinite⟩
  -- A double of its own, which no 32-bit number is near enough to.
  · have hrounds := Double.rounds_ofInt (2 ^ 128)
    obtain ⟨x, -, -, hdouble, -, habsent⟩ :=
      (hread _ _ (.integer _)).2
        (hrounds.isFinite_iff.mp (by decide +kernel))
    have hnearest := Store.empty.read_floating .double (.integer (2 ^ 128)) .strict
    rw [Store.readFloating_integer] at hnearest
    have hint : (Double.ofInt (2 ^ 128)).toInt? = some (2 ^ 128) := by decide +kernel
    generalize Double.ofInt (2 ^ 128) = y at hnearest hint
    cases hdouble.symm.trans hnearest
    refine habsent ?_
    rw [Double.value_of_toInt? hint, abs_of_pos (by positivity), Int.cast_pow, Int.cast_ofNat]
    exact sub_le_self _ (by positivity)

end TypedReads
