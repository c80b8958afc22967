import Mathlib.Data.Nat.Log
import Mathlib.Tactic.Linarith
import Mathlib.Tactic.Ring
import TypedReads.Number.Rounding

/-!
# Rounding is monotone and exact

`BinaryFormat.rank` rounds a quotient to a rank. `rank_mono` says that a greater quotient never gets
a smaller rank, and `rank_unitsAt` that the magnitude of a rank gets that rank back; together they
make `rank` the rounding of an ordered grid, and nothing else about its arithmetic is needed
later. `unitsAt_rank` says which counts of units are magnitudes: those without bits below the
significand.

The proofs compare significands within a binade and whole binades across two: a quotient with
`shift` dropped bits has its rank between `shift` and `shift + 2` binades.
-/

namespace TypedReads

/-- Rounding to whole numbers keeps the order of quotients. -/
theorem roundHalfEven_mono {n d n' d' : ℕ} (hd : 0 < d) (hd' : 0 < d') (h : n * d' ≤ n' * d) :
    roundHalfEven n d ≤ roundHalfEven n' d' := by
  have hn := Nat.div_add_mod n d
  have hn' := Nat.div_add_mod n' d'
  have hr := Nat.mod_lt n hd
  have hr' := Nat.mod_lt n' hd'
  have hle : n / d ≤ n' / d' := by
    rw [Nat.le_div_iff_mul_le hd']
    have := Nat.div_mul_le_self n d
    nlinarith
  unfold roundHalfEven
  dsimp only
  rcases hle.lt_or_eq with hlt | heq
  · -- Rounding adds at most one.
    split_ifs <;> omega
  · -- Within one unit the rests decide.
    have hrest : (n % d) * d' ≤ (n' % d') * d := by
      rw [← hn, ← hn', heq] at h
      nlinarith
    rw [heq]
    split_ifs with h1 h2 h2
    · omega
    · omega
    · -- Only the smaller quotient is rounded up: its rest would be the greater one.
      exfalso
      rcases Nat.lt_trichotomy (2 * (n % d)) d with hl | hl | hl
      · exact h1 (.inl hl)
      · rcases h2 with h2 | ⟨h2, heven⟩
        · nlinarith
        · exact h1 (.inr ⟨hl, by omega⟩)
      · rcases h2 with h2 | ⟨h2, heven⟩ <;> nlinarith
    · omega

/-- A whole number is rounded to itself. -/
theorem roundHalfEven_mul (k : ℕ) {d : ℕ} (hd : 0 < d) : roundHalfEven (k * d) d = k := by
  unfold roundHalfEven
  rw [Nat.mul_mod_left, Nat.mul_div_cancel k hd]
  simp [hd]

/-- A quotient is rounded to no less than a whole number below it. -/
theorem le_roundHalfEven {k n d : ℕ} (hd : 0 < d) (h : k * d ≤ n) : k ≤ roundHalfEven n d := by
  have hmono : roundHalfEven (k * d) d ≤ roundHalfEven n d :=
    roundHalfEven_mono hd hd (Nat.mul_le_mul_right d h)
  rwa [roundHalfEven_mul k hd] at hmono

/-- A quotient is rounded to no more than a whole number above it. -/
theorem roundHalfEven_le {k n d : ℕ} (hd : 0 < d) (h : n ≤ k * d) : roundHalfEven n d ≤ k := by
  have hmono : roundHalfEven n d ≤ roundHalfEven (k * d) d :=
    roundHalfEven_mono hd hd (Nat.mul_le_mul_right d h)
  rwa [roundHalfEven_mul k hd] at hmono

namespace BinaryFormat

variable (f : BinaryFormat)

/-- The bits that a quotient of units has too many for a significand. -/
def dropped (units den : ℕ) : ℕ := (units / den).log2 + 1 - f.precision

/-- A rank is a binade for each dropped bit and the rounded quotient of what is left. -/
theorem rank_eq (num den : ℕ) :
    f.rank num den = f.dropped (num * f.one) den * f.binade +
      roundHalfEven (num * f.one) (den * 2 ^ f.dropped (num * f.one) den) := rfl

/-- One has units. -/
theorem one_pos : 0 < f.one := Nat.two_pow_pos _

/-- A binade has ranks. -/
theorem binade_pos : 0 < f.binade := Nat.two_pow_pos _

/-- Two binades have a rank for each significand below the power of the precision. -/
theorem two_mul_binade (hf : 0 < f.precision) : 2 * f.binade = 2 ^ f.precision := by
  unfold binade
  rw [← pow_succ']
  congr 1
  omega

/-- A greater quotient drops no fewer bits. -/
theorem dropped_mono {u d u' d' : ℕ} (hd : 0 < d) (hd' : 0 < d') (h : u * d' ≤ u' * d) :
    f.dropped u d ≤ f.dropped u' d' := by
  have hle : u / d ≤ u' / d' := by
    rw [Nat.le_div_iff_mul_le hd']
    have := Nat.div_mul_le_self u d
    nlinarith
  have hlog : (u / d).log2 ≤ (u' / d').log2 := by
    rw [Nat.log2_eq_log_two, Nat.log2_eq_log_two]
    exact Nat.log_mono_right hle
  unfold dropped
  omega

/-- What is left of a quotient after dropping bits is below two binades. -/
theorem lt_two_binades (hf : 0 < f.precision) {u d : ℕ} (hd : 0 < d) :
    u < 2 * f.binade * (d * 2 ^ f.dropped u d) := by
  have hlt : u / d < 2 ^ (f.dropped u d + f.precision) := by
    rcases Nat.eq_zero_or_pos (u / d) with h0 | hpos
    · rw [h0]
      exact Nat.two_pow_pos _
    · refine lt_of_lt_of_le Nat.lt_log2_self (Nat.pow_le_pow_right (by norm_num) ?_)
      unfold dropped
      omega
  rw [Nat.div_lt_iff_lt_mul hd, pow_add] at hlt
  rw [f.two_mul_binade hf]
  calc u < 2 ^ f.dropped u d * 2 ^ f.precision * d := hlt
    _ = 2 ^ f.precision * (d * 2 ^ f.dropped u d) := by ring

/-- If bits are dropped, what is left of a quotient fills a significand. -/
theorem binade_le (hf : 0 < f.precision) {u d : ℕ} (hd : 0 < d) (hdrop : 0 < f.dropped u d) :
    f.binade * (d * 2 ^ f.dropped u d) ≤ u := by
  have hexp : f.precision - 1 + f.dropped u d = (u / d).log2 := by
    unfold dropped at hdrop ⊢
    omega
  have hne : u / d ≠ 0 := by
    intro h0
    unfold dropped at hdrop
    rw [h0, Nat.log2_zero] at hdrop
    omega
  have hle : 2 ^ (f.precision - 1 + f.dropped u d) ≤ u / d := by
    rw [hexp]
    exact Nat.log2_self_le hne
  rw [Nat.le_div_iff_mul_le hd, pow_add] at hle
  unfold binade
  calc 2 ^ (f.precision - 1) * (d * 2 ^ f.dropped u d)
      = 2 ^ (f.precision - 1) * 2 ^ f.dropped u d * d := by ring
    _ ≤ u := hle

/-- A number that fills a significand with `t` bits behind it, and with `s` bits behind it stays below
two binades, has no more bits behind the former. -/
theorem le_of_binades {s t u : ℕ} (hlow : f.binade * 2 ^ t ≤ u)
    (hhigh : u < 2 * f.binade * 2 ^ s) : t ≤ s := by
  by_contra hgt
  have hpow : 2 * 2 ^ s ≤ 2 ^ t := by
    rw [← pow_succ']
    exact Nat.pow_le_pow_right (by norm_num) (by omega)
  have : f.binade * 2 ^ t < f.binade * 2 ^ t := by
    calc f.binade * 2 ^ t ≤ u := hlow
      _ < 2 * f.binade * 2 ^ s := hhigh
      _ = f.binade * (2 * 2 ^ s) := by ring
      _ ≤ f.binade * 2 ^ t := Nat.mul_le_mul_left _ hpow
  omega

/-- A greater quotient never gets a smaller rank. -/
theorem rank_mono (hf : 0 < f.precision) {n d n' d' : ℕ} (hd : 0 < d) (hd' : 0 < d')
    (h : n * d' ≤ n' * d) : f.rank n d ≤ f.rank n' d' := by
  have hunits : n * f.one * d' ≤ n' * f.one * d := by
    have := Nat.mul_le_mul_right f.one h
    linarith
  have hdrop := f.dropped_mono hd hd' hunits
  have hlow := (f.lt_two_binades hf (u := n * f.one) hd).le
  have hhigh := f.binade_le hf (u := n' * f.one) hd'
  rw [f.rank_eq, f.rank_eq]
  generalize f.dropped (n * f.one) d = s at *
  generalize f.dropped (n' * f.one) d' = s' at *
  rcases hdrop.lt_or_eq with hlt | rfl
  · -- A whole binade lies between them.
    have hle := roundHalfEven_le (Nat.mul_pos hd (Nat.two_pow_pos s)) hlow
    have hge := le_roundHalfEven (Nat.mul_pos hd' (Nat.two_pow_pos s')) (hhigh (by omega))
    calc s * f.binade + roundHalfEven (n * f.one) (d * 2 ^ s)
        ≤ s * f.binade + 2 * f.binade := Nat.add_le_add_left hle _
      _ = (s + 1) * f.binade + f.binade := by ring
      _ ≤ s' * f.binade + f.binade :=
          Nat.add_le_add_right (Nat.mul_le_mul_right _ hlt) _
      _ ≤ s' * f.binade + roundHalfEven (n' * f.one) (d' * 2 ^ s') := Nat.add_le_add_left hge _
  · -- In one binade the significands are rounded alike.
    refine Nat.add_le_add_left (roundHalfEven_mono ?_ ?_ ?_) _
    · exact Nat.mul_pos hd (Nat.two_pow_pos s)
    · exact Nat.mul_pos hd' (Nat.two_pow_pos s)
    · calc n * f.one * (d' * 2 ^ s) = n * f.one * d' * 2 ^ s := by ring
        _ ≤ n' * f.one * d * 2 ^ s := Nat.mul_le_mul_right _ hunits
        _ = n' * f.one * (d * 2 ^ s) := by ring

/-- Zero has the first rank. -/
theorem rank_zero (hf : 0 < f.precision) {d : ℕ} (hd : 0 < d) : f.rank 0 d = 0 := by
  have hdrop : f.dropped (0 * f.one) d = 0 := by
    unfold dropped
    rw [Nat.zero_mul, Nat.zero_div, Nat.log2_zero]
    omega
  rw [f.rank_eq, hdrop, Nat.zero_mul, Nat.zero_add]
  exact Nat.le_zero.mp (roundHalfEven_le (by simpa using hd) (by simp))

/-- Equal quotients get the same rank. -/
theorem rank_congr (hf : 0 < f.precision) {n d n' d' : ℕ} (hd : 0 < d) (hd' : 0 < d')
    (h : n * d' = n' * d) : f.rank n d = f.rank n' d' :=
  le_antisymm (f.rank_mono hf hd hd' h.le) (f.rank_mono hf hd' hd h.ge)

/-- The magnitude of a significand with bits dropped behind it. Only the first binade has
significands that are not full. -/
theorem unitsAt_add {s m : ℕ} (hm : m < 2 * f.binade) (hfull : s = 0 ∨ f.binade ≤ m) :
    f.unitsAt (s * f.binade + m) = m * 2 ^ s := by
  have hb := f.binade_pos
  unfold unitsAt
  by_cases hfirst : s = 0 ∧ m < f.binade
  · obtain ⟨rfl, hlt⟩ := hfirst
    rw [if_pos (by omega)]
    simp
  · -- The first bit of a full significand is the hidden one, which the binade counts.
    have hge : f.binade ≤ m := by omega
    obtain ⟨k, rfl⟩ := Nat.exists_eq_add_of_le hge
    have hk : k < f.binade := by omega
    have hsplit : s * f.binade + (f.binade + k) = k + f.binade * (s + 1) := by ring
    rw [hsplit, if_neg (by nlinarith), Nat.add_mul_mod_self_left, Nat.mod_eq_of_lt hk,
      Nat.add_mul_div_left _ _ hb, Nat.div_eq_of_lt hk]
    simp

/-- A count of units without bits below the significand is a magnitude, and its rank is found. -/
theorem unitsAt_rank (hf : 0 < f.precision) {n d u : ℕ} (hd : 0 < d) (h : n * f.one = u * d)
    (hbits : 2 ^ f.dropped u 1 ∣ u) : f.unitsAt (f.rank n d) = u := by
  obtain ⟨m, hm⟩ := hbits
  have hdrop : f.dropped (n * f.one) d = f.dropped u 1 := by
    unfold dropped
    rw [h, Nat.mul_div_cancel _ hd, Nat.div_one]
  have hlow := f.lt_two_binades hf (u := u) Nat.one_pos
  have hhigh := f.binade_le hf (u := u) Nat.one_pos
  rw [f.rank_eq, hdrop, h]
  generalize f.dropped u 1 = s at *
  have hpow := Nat.two_pow_pos s
  have hround : roundHalfEven (u * d) (d * 2 ^ s) = m := by
    rw [hm, show 2 ^ s * m * d = m * (d * 2 ^ s) by ring]
    exact roundHalfEven_mul m (Nat.mul_pos hd hpow)
  rw [one_mul, hm, mul_comm (2 ^ s) m] at hlow hhigh
  have hfull : s = 0 ∨ f.binade ≤ m := by
    rcases Nat.eq_zero_or_pos s with h0 | hpos
    · exact .inl h0
    · exact .inr (Nat.le_of_mul_le_mul_right (hhigh hpos) hpow)
  rw [hround, f.unitsAt_add (Nat.lt_of_mul_lt_mul_right hlow) hfull, hm, mul_comm]

/-- Every rank is that of a significand with bits dropped behind it. -/
theorem exists_significand (r : ℕ) :
    ∃ s m, r = s * f.binade + m ∧ m < 2 * f.binade ∧ (s = 0 ∨ f.binade ≤ m) := by
  have hb := f.binade_pos
  rcases Nat.lt_or_ge r (2 * f.binade) with hlt | hge
  · exact ⟨0, r, by simp, hlt, .inl rfl⟩
  · have hdiv : 2 ≤ r / f.binade := (Nat.le_div_iff_mul_le hb).mpr hge
    obtain ⟨s, hs⟩ := Nat.exists_eq_add_of_le' (Nat.le_of_lt hdiv)
    have hmod := Nat.mod_lt r hb
    refine ⟨s, f.binade + r % f.binade, ?_, by omega, .inr (by omega)⟩
    calc r = f.binade * (r / f.binade) + r % f.binade := (Nat.div_add_mod r f.binade).symm
      _ = s * f.binade + (f.binade + r % f.binade) := by rw [hs]; ring

/-- The bits behind a significand are those that rounding drops. -/
theorem dropped_significand (hf : 0 < f.precision) {s m : ℕ} (hm : m < 2 * f.binade)
    (hfull : s = 0 ∨ f.binade ≤ m) : f.dropped (m * 2 ^ s) 1 = s := by
  have hlow := f.lt_two_binades hf (u := m * 2 ^ s) Nat.one_pos
  have hhigh := f.binade_le hf (u := m * 2 ^ s) Nat.one_pos
  rw [one_mul] at hlow hhigh
  generalize f.dropped (m * 2 ^ s) 1 = t at *
  -- Either count of bits leaves a full significand, or is zero.
  have hts : t ≤ s := by
    rcases Nat.eq_zero_or_pos t with rfl | hpos
    · exact Nat.zero_le s
    · exact f.le_of_binades (hhigh hpos) (Nat.mul_lt_mul_of_pos_right hm (Nat.two_pow_pos s))
  have hst : s ≤ t := by
    rcases hfull with rfl | hge
    · exact Nat.zero_le t
    · exact f.le_of_binades (Nat.mul_le_mul_right _ hge) hlow
  exact le_antisymm hts hst

/-- The magnitude of a rank gets that rank back. -/
theorem rank_unitsAt (hf : 0 < f.precision) (r : ℕ) : f.rank (f.unitsAt r) f.one = r := by
  obtain ⟨s, m, rfl, hm, hfull⟩ := f.exists_significand r
  have hdrop : f.dropped (m * 2 ^ s * f.one) f.one = s := by
    have hs := f.dropped_significand hf hm hfull
    unfold dropped at hs ⊢
    rw [Nat.mul_div_cancel _ f.one_pos, ← Nat.div_one (m * 2 ^ s)]
    exact hs
  have hround : roundHalfEven (m * 2 ^ s * f.one) (f.one * 2 ^ s) = m := by
    rw [show m * 2 ^ s * f.one = m * (f.one * 2 ^ s) by ring]
    exact roundHalfEven_mul m (Nat.mul_pos f.one_pos (Nat.two_pow_pos s))
  rw [f.unitsAt_add hm hfull, f.rank_eq, hdrop, hround]

/-- Magnitudes grow with their ranks. -/
theorem unitsAt_lt (hf : 0 < f.precision) {r r' : ℕ} (h : r < r') :
    f.unitsAt r < f.unitsAt r' := by
  by_contra hge
  have := f.rank_mono hf f.one_pos f.one_pos (Nat.mul_le_mul_right f.one (Nat.not_lt.mp hge))
  rw [f.rank_unitsAt hf, f.rank_unitsAt hf] at this
  omega

/-- Magnitudes never go down with their ranks. -/
theorem unitsAt_mono (hf : 0 < f.precision) {r r' : ℕ} (h : r ≤ r') :
    f.unitsAt r ≤ f.unitsAt r' := by
  rcases h.lt_or_eq with hlt | rfl
  · exact (f.unitsAt_lt hf hlt).le
  · exact le_rfl

/-- A whole number that fits a significand, or is the first that does not, is a magnitude. -/
theorem unitsAt_rank_whole (hf : 0 < f.precision) {n : ℕ} (hn : n ≤ 2 ^ f.precision) :
    f.unitsAt (f.rank n 1) = n * f.one := by
  refine f.unitsAt_rank hf Nat.one_pos (by ring) ?_
  have hhigh := f.binade_le hf (u := n * f.one) Nat.one_pos
  have htwo := f.two_mul_binade hf
  have hb := f.binade_pos
  rw [one_mul] at hhigh
  generalize f.dropped (n * f.one) 1 = t at *
  rcases hn.lt_or_eq with hlt | rfl
  · -- No more bits are dropped than stand behind the point.
    have ht : t ≤ f.scale := by
      rcases Nat.eq_zero_or_pos t with rfl | hpos
      · exact Nat.zero_le _
      · refine f.le_of_binades (hhigh hpos) ?_
        rw [htwo]
        exact Nat.mul_lt_mul_of_pos_right hlt (Nat.two_pow_pos _)
    exact Dvd.dvd.mul_left (Nat.pow_dvd_pow 2 ht) n
  · -- The first number that does not fit is a power of two, of which all but one bit may go.
    have ht : t ≤ f.precision + f.scale := by
      by_contra hgt
      have hpow : 2 ^ (f.precision + f.scale) < 2 ^ t :=
        Nat.pow_lt_pow_right (by norm_num) (by omega)
      have : 2 ^ t < 2 ^ t := by
        calc 2 ^ t ≤ f.binade * 2 ^ t := Nat.le_mul_of_pos_left _ hb
          _ ≤ 2 ^ f.precision * 2 ^ f.scale := hhigh (by omega)
          _ = 2 ^ (f.precision + f.scale) := (pow_add 2 _ _).symm
          _ < 2 ^ t := hpow
      omega
    unfold one
    rw [← pow_add]
    exact Nat.pow_dvd_pow 2 ht

/-- From the first magnitude with a full significand and no fraction on, magnitudes are whole. -/
theorem one_dvd_unitsAt {r : ℕ} (hr : (f.scale + 1) * f.binade ≤ r) : f.one ∣ f.unitsAt r := by
  have hb := f.binade_pos
  have hdiv : f.scale + 1 ≤ r / f.binade := (Nat.le_div_iff_mul_le hb).mpr hr
  have hfirst : ¬ r < f.binade := by
    have := Nat.div_mul_le_self r f.binade
    nlinarith
  unfold unitsAt
  rw [if_neg hfirst]
  exact Dvd.dvd.mul_left (Nat.pow_dvd_pow 2 (by omega)) _

end BinaryFormat

end TypedReads
