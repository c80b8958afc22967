import Mathlib.Data.Nat.Notation
import Mathlib.Tactic.SplitIfs
import TypedReads.Text.Quoted
import TypedReads.Text.Utf8

/-!
# Quoting by code points

A JSON string may be described code point by code point, a pair of surrogates being one: a code point in
the table of escapes stands as a backslash and a letter, any other control and a surrogate on its own as
`\u` with four hexadecimal digits, and all else as its code units. `Text.quote` goes by code units and
looks at two of them at a time. Both give the same text (`Text.quote_eq_quotePoints`).
-/

namespace TypedReads

/-- The code points of a text. A pair of surrogates is one, and a surrogate on its own is itself. -/
def Text.codePoints : Text → List ℕ
  | [] => []
  | [u] => [u.toNat]
  | u :: v :: rest =>
    if CodeUnit.isHigh u && CodeUnit.isLow v then pairedCodePoint u v :: Text.codePoints rest
    else u.toNat :: Text.codePoints (v :: rest)

/-- The code points that have an escape of a single character. -/
def escapeTable : List (ℕ × Char) :=
  [(0x08, 'b'), (0x09, 't'), (0x0A, 'n'), (0x0C, 'f'), (0x0D, 'r'), (0x22, '"'), (0x5C, '\\')]

/-- A number in hexadecimal digits. -/
def hexText : ℕ → ℕ → Text
  | 0, _ => []
  | width + 1, n => hexText width (n / 16) ++ [hexUnit (n % 16)]

/-- How a code point is written in a JSON string. -/
def quotePoint (c : ℕ) : Text :=
  match escapeTable.lookup c with
  | some letter => [unit '\\', unit letter]
  | none =>
    if c < 0x20 ∨ 0xD800 ≤ c ∧ c ≤ 0xDFFF then units "\\u" ++ hexText 4 c
    else unitsOfCodePoint c

/-- A text as a JSON string, code point by code point. -/
def Text.quotePoints (t : Text) : Text :=
  units "\"" ++ t.codePoints.flatMap quotePoint ++ units "\""

/-- What is not in the table has no escape there. -/
theorem lookup_escapeTable {c : ℕ} (h : c ∉ escapeTable.map Prod.fst) :
    escapeTable.lookup c = none := by
  rw [List.lookup_eq_none_iff]
  exact fun row hrow => bne_iff_ne.mpr fun heq => h (heq ▸ List.mem_map_of_mem hrow)

section Units

variable {u v : CodeUnit}

/-- What has an escape is in the table. -/
theorem mem_escapeTable_of_shortEscape? {c : CodeUnit} (h : shortEscape? u = some c) :
    u.toNat ∈ escapeTable.map Prod.fst := by
  unfold shortEscape? at h
  split_ifs at h with hself
  · rcases hself with rfl | rfl <;> decide
  all_goals
    subst_vars
    decide

/-- The escapes of units are those of the table. -/
theorem shortEscape?_eq (u : CodeUnit) :
    shortEscape? u = (escapeTable.lookup u.toNat).map unit := by
  by_cases h : u.toNat ∈ escapeTable.map Prod.fst
  · have hall : ∀ c ∈ escapeTable.map Prod.fst,
        shortEscape? c.toUInt16 = (escapeTable.lookup c).map unit := by decide
    have hu := hall u.toNat h
    rwa [Nat.toUInt16, UInt16.ofNat_toNat] at hu
  · rw [lookup_escapeTable h]
    exact Option.eq_none_iff_forall_ne_some.mpr fun c hc => h (mem_escapeTable_of_shortEscape? hc)

/-- Four digits are enough for a unit. -/
theorem hexEscape_eq (u : CodeUnit) : hexEscape u = units "\\u" ++ hexText 4 u.toNat := by
  have hlt : u.toNat < 65536 := u.toNat_lt
  have hhead : units "\\u" = [unit '\\', unit 'u'] := by decide
  have hfirst : u.toNat / 16 / 16 / 16 % 16 = u.toNat / 0x1000 := by omega
  have hsecond : u.toNat / 16 / 16 % 16 = u.toNat / 0x100 % 0x10 := by omega
  simp only [hexText, hfirst, hsecond, hhead, hexEscape]
  rfl

/-- A range of units is a range of numbers. -/
theorem between_iff {first last : CodeUnit} :
    (decide (first ≤ u) && decide (u ≤ last)) = true ↔
      first.toNat ≤ u.toNat ∧ u.toNat ≤ last.toNat := by
  rw [Bool.and_eq_true, decide_eq_true_iff, decide_eq_true_iff, UInt16.le_iff_toNat_le,
    UInt16.le_iff_toNat_le]

/-- The surrogates by their numbers. -/
theorem isSurrogate_iff : CodeUnit.isSurrogate u = true ↔ 0xD800 ≤ u.toNat ∧ u.toNat ≤ 0xDFFF :=
  between_iff

/-- The first halves of pairs by their numbers. -/
theorem isHigh_iff : CodeUnit.isHigh u = true ↔ 0xD800 ≤ u.toNat ∧ u.toNat ≤ 0xDBFF :=
  between_iff

/-- The second halves of pairs by their numbers. -/
theorem isLow_iff : CodeUnit.isLow v = true ↔ 0xDC00 ≤ v.toNat ∧ v.toNat ≤ 0xDFFF :=
  between_iff

/-- A unit that is no half of a pair is written as its code point. -/
theorem escapeUnit_eq_quotePoint (u : CodeUnit) : escapeUnit u = quotePoint u.toNat := by
  unfold escapeUnit quotePoint
  rw [shortEscape?_eq]
  cases escapeTable.lookup u.toNat with
  | some letter => rfl
  | none =>
    have hcontrol : u < 0x20 ↔ u.toNat < 0x20 := UInt16.lt_iff_toNat_lt
    have hunits : unitsOfCodePoint u.toNat = [u] := by
      unfold unitsOfCodePoint
      rw [if_pos u.toNat_lt, Nat.toUInt16, UInt16.ofNat_toNat]
    simp only [Option.map_none, hcontrol, isSurrogate_iff, hexEscape_eq, hunits]

/-- The code point of a pair is past those of single units. -/
theorem le_pairedCodePoint (u v : CodeUnit) : 0x10000 ≤ pairedCodePoint u v := by
  unfold pairedCodePoint
  rw [Nat.add_assoc]
  exact Nat.le_add_right _ _

/-- A pair is read back from its code point. -/
theorem unitsOfCodePoint_pairedCodePoint (hu : CodeUnit.isHigh u = true)
    (hv : CodeUnit.isLow v = true) : unitsOfCodePoint (pairedCodePoint u v) = [u, v] := by
  rw [isHigh_iff] at hu
  rw [isLow_iff] at hv
  have hoffset : pairedCodePoint u v - 0x10000 =
      (u.toNat - 0xD800) * 0x400 + (v.toNat - 0xDC00) := by
    unfold pairedCodePoint
    rw [Nat.add_assoc, Nat.add_sub_cancel_left]
  have hfirst : 0xD800 + (pairedCodePoint u v - 0x10000) / 0x400 = u.toNat := by
    rw [hoffset]
    omega
  have hsecond : 0xDC00 + (pairedCodePoint u v - 0x10000) % 0x400 = v.toNat := by
    rw [hoffset]
    omega
  rw [unitsOfCodePoint, if_neg (Nat.not_lt.mpr (le_pairedCodePoint u v)), hfirst, hsecond]
  simp only [Nat.toUInt16, UInt16.ofNat_toNat]

/-- A pair is written as it is. -/
theorem quotePoint_pairedCodePoint (hu : CodeUnit.isHigh u = true) (hv : CodeUnit.isLow v = true) :
    quotePoint (pairedCodePoint u v) = [u, v] := by
  have hlarge := le_pairedCodePoint u v
  have htable : pairedCodePoint u v ∉ escapeTable.map Prod.fst := by
    have hall : ∀ c ∈ escapeTable.map Prod.fst, c < 0x80 := by decide
    exact fun h => absurd (hall _ h) (by omega)
  have hplain : ¬ (pairedCodePoint u v < 0x20 ∨
      0xD800 ≤ pairedCodePoint u v ∧ pairedCodePoint u v ≤ 0xDFFF) := by omega
  rw [quotePoint, lookup_escapeTable htable, ← unitsOfCodePoint_pairedCodePoint hu hv]
  exact if_neg hplain

end Units

/-- What stands between the quotes is written code point by code point. -/
theorem Text.escape_eq (t : Text) : t.escape = t.codePoints.flatMap quotePoint := by
  fun_induction Text.escape t with
  | case1 => rfl
  | case2 u =>
    rw [Text.codePoints, List.flatMap_singleton, escapeUnit_eq_quotePoint]
  | case3 u v rest hpair ih =>
    obtain ⟨hu, hv⟩ := Bool.and_eq_true_iff.mp hpair
    rw [Text.codePoints, if_pos hpair, List.flatMap_cons, quotePoint_pairedCodePoint hu hv, ih]
    rfl
  | case4 u v rest hpair ih =>
    rw [Text.codePoints, if_neg hpair, List.flatMap_cons, escapeUnit_eq_quotePoint, ih]

/-- Quoting by code units and by code points is the same. -/
theorem Text.quote_eq_quotePoints (t : Text) : t.quote = t.quotePoints := by
  have hquote : units "\"" = [unit '"'] := by decide
  rw [Text.quote, Text.quotePoints, Text.escape_eq, hquote]
  rfl

end TypedReads
