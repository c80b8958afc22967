import Mathlib.Data.List.Induction
import Mathlib.Tactic.Ring
import TypedReads.Number.Numeral

/-!
# Decimal digits and the numbers they spell

`decimalDigits` writes a number and `ofDigits` reads it back (`ofDigits_decimalDigits`); leading
zeros add nothing, and digits put behind others shift them. `digitText` is a list of digits as a
text, and `Text.scanDigits` reads such a text up to the first unit that is no digit, and nothing else
(`digitText_of_scanDigits`). So a text spells a natural number exactly if it is digits alone
(`natural?_eq_some_iff`).
-/

namespace TypedReads

/-- Digits as a text. -/
def digitText (ds : List ℕ) : Text := ds.map digitUnit

/-- No digits have an empty text. -/
@[simp] theorem digitText_nil : digitText [] = [] := rfl

/-- The first digit is the first unit. -/
@[simp] theorem digitText_cons (d : ℕ) (ds : List ℕ) :
    digitText (d :: ds) = digitUnit d :: digitText ds := rfl

/-- The texts of digits follow one another. -/
@[simp] theorem digitText_append (ds es : List ℕ) :
    digitText (ds ++ es) = digitText ds ++ digitText es := List.map_append

/-- A repeated digit is a repeated unit. -/
theorem digitText_replicate (k d : ℕ) :
    digitText (List.replicate k d) = List.replicate k (digitUnit d) := List.map_replicate

/-- The text of a number is that of its decimal digits. -/
theorem Text.ofNat_eq (n : ℕ) : Text.ofNat n = digitText (decimalDigits n) := rfl

/-- A decimal digit is read back from its unit. -/
theorem digit?_digitUnit {d : ℕ} (h : d < 10) : CodeUnit.digit? (digitUnit d) = some d := by
  have hall : ∀ d < 10, CodeUnit.digit? (digitUnit d) = some d := by decide
  exact hall d h

/-- Digits that start a text are read, if no further digit follows them. -/
theorem scanDigits_digitText {ds : List ℕ} (hds : ∀ d ∈ ds, d < 10) {rest : Text}
    (hrest : ∀ u ∈ rest.head?, CodeUnit.digit? u = none) :
    Text.scanDigits (digitText ds ++ rest) = (ds, rest) := by
  induction ds with
  | nil =>
    -- What follows stops the scan at once.
    cases rest with
    | nil => rfl
    | cons u rest =>
      rw [digitText_nil, List.nil_append, Text.scanDigits, hrest u (by simp)]
  | cons d ds ih =>
    rw [digitText_cons, List.cons_append, Text.scanDigits, digit?_digitUnit (hds d (by simp))]
    dsimp only
    rw [ih fun e he => hds e (List.mem_cons_of_mem d he)]

/-- A text of digits alone is read to its end. -/
theorem scanDigits_digitText_nil {ds : List ℕ} (hds : ∀ d ∈ ds, d < 10) :
    Text.scanDigits (digitText ds) = (ds, []) := by
  have hnil : ∀ u ∈ ([] : Text).head?, CodeUnit.digit? u = none := fun u hu =>
    absurd hu (Option.not_mem_none u)
  have hscan := scanDigits_digitText hds hnil
  rwa [List.append_nil] at hscan

/-- A digit is the unit of its value. -/
theorem eq_digitUnit_of_digit? {u : CodeUnit} {d : ℕ} (h : CodeUnit.digit? u = some d) :
    u = digitUnit d ∧ d < 10 := by
  unfold CodeUnit.digit? at h
  split at h
  · rename_i hrange
    cases h
    obtain ⟨hlow, hhigh⟩ := hrange
    have hlow : 48 ≤ u.toNat := UInt16.le_iff_toNat_le.mp hlow
    have hhigh : u.toNat ≤ 57 := UInt16.le_iff_toNat_le.mp hhigh
    refine ⟨?_, by omega⟩
    unfold digitUnit
    rw [Nat.add_sub_cancel' hlow]
    exact UInt16.ofNat_toNat.symm
  · cases h

/-- Digits are read from their units, with nothing left out. -/
theorem digitText_of_scanDigits (t : Text) :
    (∀ d ∈ (Text.scanDigits t).1, d < 10) ∧
      t = digitText (Text.scanDigits t).1 ++ (Text.scanDigits t).2 := by
  fun_induction Text.scanDigits t with
  | case1 => exact ⟨by simp, rfl⟩
  | case2 u rest d hd ds after hscan ih =>
    obtain ⟨rfl, hten⟩ := eq_digitUnit_of_digit? hd
    rw [hscan] at ih
    obtain ⟨hds, hrest⟩ := ih
    refine ⟨?_, congrArg (digitUnit d :: ·) hrest⟩
    rintro e he
    rcases List.mem_cons.mp he with rfl | he
    · exact hten
    · exact hds e he
  | case3 u rest hu => exact ⟨by simp, rfl⟩

/-- Where some digit was read, it starts the text. -/
theorem digitText_of_scanDigits_ne {t rest : Text} {ds : List ℕ}
    (h : Text.scanDigits t = (ds, rest)) :
    (∀ d ∈ ds, d < 10) ∧ t = digitText ds ++ rest := by
  have hscan := digitText_of_scanDigits t
  rwa [h] at hscan

/-- A text of digits alone spells their number, and no other text spells one. -/
theorem natural?_eq_some_iff {t : Text} {n : ℕ} :
    t.natural? = some n ↔
      ∃ ds, ds ≠ [] ∧ (∀ d ∈ ds, d < 10) ∧ t = digitText ds ∧ n = ofDigits ds := by
  unfold Text.natural?
  constructor
  · intro h
    split at h
    · cases h
    · rename_i ds hempty hscan
      cases h
      obtain ⟨hds, ht⟩ := digitText_of_scanDigits_ne hscan
      rw [List.append_nil] at ht
      exact ⟨ds, hempty, hds, ht, rfl⟩
    · cases h
  · rintro ⟨ds, hne, hds, rfl, rfl⟩
    obtain ⟨d, ds, rfl⟩ := List.exists_cons_of_ne_nil hne
    rw [scanDigits_digitText_nil hds]

/-- The number that digits spell behind a number already read. -/
theorem foldl_digits (n : ℕ) (ds : List ℕ) :
    ds.foldl (fun n d => 10 * n + d) n = n * 10 ^ ds.length + ofDigits ds := by
  unfold ofDigits
  induction ds generalizing n with
  | nil => simp
  | cons d ds ih =>
    rw [List.foldl_cons, List.foldl_cons, ih, ih (10 * 0 + d), List.length_cons]
    ring

/-- Further digits move the number to the left. -/
theorem ofDigits_append (ds es : List ℕ) :
    ofDigits (ds ++ es) = ofDigits ds * 10 ^ es.length + ofDigits es := by
  rw [ofDigits, List.foldl_append, foldl_digits]
  rfl

/-- Zeros are worth nothing. -/
theorem ofDigits_replicate_zero (k : ℕ) : ofDigits (List.replicate k 0) = 0 := by
  induction k with
  | zero => rfl
  | succ k ih =>
    rw [List.replicate_succ', ofDigits_append, ih]
    rfl

/-- The digits of a number spell it. -/
theorem ofDigits_decimalDigits (n : ℕ) : ofDigits (decimalDigits n) = n := by
  fun_induction decimalDigits n with
  | case1 n h => simp [ofDigits]
  | case2 n h ih =>
    rw [ofDigits_append, ih]
    simp [ofDigits]
    omega

/-- The digits of a number are below ten. -/
theorem lt_ten_of_mem_decimalDigits {n d : ℕ} (h : d ∈ decimalDigits n) : d < 10 := by
  fun_induction decimalDigits n with
  | case1 n hn =>
    rw [List.mem_singleton] at h
    omega
  | case2 n hn ih =>
    rcases List.mem_append.mp h with hmem | hmem
    · exact ih hmem
    · rw [List.mem_singleton] at hmem
      omega

/-- Below ten there is one digit. -/
theorem decimalDigits_of_lt {n : ℕ} (h : n < 10) : decimalDigits n = [n] := by
  rw [decimalDigits, if_pos h]

/-- Every number has a digit. -/
theorem decimalDigits_ne_nil (n : ℕ) : decimalDigits n ≠ [] := by
  fun_cases decimalDigits n <;> simp

/-- A positive number is at least the power of ten at its first digit. -/
theorem pow_length_decimalDigits_le {n : ℕ} (hn : 0 < n) :
    10 ^ ((decimalDigits n).length - 1) ≤ n := by
  fun_induction decimalDigits n with
  | case1 n h =>
    rw [List.length_singleton]
    exact hn
  | case2 n h ih =>
    -- One more digit makes the number at least ten times the one before it.
    have hle := ih (by omega)
    have hlen := List.length_pos_iff.mpr (decimalDigits_ne_nil (n / 10))
    rw [List.length_append, List.length_singleton, Nat.add_sub_cancel]
    obtain ⟨k, hk⟩ : ∃ k, (decimalDigits (n / 10)).length = k + 1 :=
      ⟨_, (Nat.sub_add_cancel hlen).symm⟩
    rw [hk, Nat.add_sub_cancel] at hle
    rw [hk, pow_succ]
    omega

/-- A number is below the power of ten behind its digits. -/
theorem lt_pow_length_decimalDigits (n : ℕ) : n < 10 ^ (decimalDigits n).length := by
  fun_induction decimalDigits n with
  | case1 n h =>
    rw [List.length_singleton]
    omega
  | case2 n h ih =>
    rw [List.length_append, List.length_singleton, pow_succ]
    omega

/-- A positive number has no leading zero. -/
theorem head?_decimalDigits_ne {n : ℕ} (hn : 0 < n) : (decimalDigits n).head? ≠ some 0 := by
  fun_induction decimalDigits n with
  | case1 n h =>
    rw [List.head?_cons, ne_eq, Option.some.injEq]
    omega
  | case2 n h ih =>
    obtain ⟨d, ds, hds⟩ := List.exists_cons_of_ne_nil (decimalDigits_ne_nil (n / 10))
    have hhead := ih (by omega)
    rw [hds] at hhead ⊢
    exact hhead

/-- Digits that do not start with a zero spell a positive number. -/
theorem ofDigits_pos {d : ℕ} (hd : d ≠ 0) (ds : List ℕ) : 0 < ofDigits (d :: ds) := by
  have hfirst : ofDigits [d] = d := by simp [ofDigits]
  rw [← List.singleton_append, ofDigits_append, hfirst]
  exact Nat.add_pos_left (Nat.mul_pos (Nat.pos_of_ne_zero hd) (Nat.pow_pos (by decide))) _

/-- Digits without a leading zero are those of the number they spell. -/
theorem decimalDigits_ofDigits {ds : List ℕ} (hne : ds ≠ []) (hten : ∀ d ∈ ds, d < 10)
    (hzero : ds.head? = some 0 → ds = [0]) : decimalDigits (ofDigits ds) = ds := by
  induction ds using List.reverseRecOn with
  | nil => exact absurd rfl hne
  | append_singleton es d ih =>
    -- The digits of a number are written from the last to the first.
    have hd : d < 10 := hten d (by simp)
    have hlast : ofDigits [d] = d := by simp [ofDigits]
    rw [ofDigits_append, hlast, List.length_singleton, pow_one]
    cases es with
    | nil =>
      have hnil : ofDigits [] * 10 + d = d := by simp [ofDigits]
      rw [hnil, decimalDigits_of_lt hd]
      rfl
    | cons e es =>
      -- More than one digit: the first is no zero, so the number before the last digit is positive.
      have he : e ≠ 0 := fun h => by
        have := hzero (by rw [h]; rfl)
        simp at this
      have hpos := ofDigits_pos he es
      have hinit := ih (List.cons_ne_nil e es) (fun d hd => hten d (List.mem_append_left _ hd))
        fun h => absurd (Option.some.inj h) he
      rw [decimalDigits, if_neg (by omega), show (ofDigits (e :: es) * 10 + d) / 10 =
        ofDigits (e :: es) by omega, show (ofDigits (e :: es) * 10 + d) % 10 = d by omega, hinit]

end TypedReads
