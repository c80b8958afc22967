import Mathlib.Data.Int.ModEq
import TypedReads.Proofs.Adapter.Reformat
import TypedReads.Proofs.Json.Decoding

/-!
# Integer literals of 64 bits

A whole number of at most 64 bits has two forms in a document that was read: a double where no other
integer shares it, and itself elsewhere (`Json.Whole`). Both have the same scalar reading
(`Store.classify_whole`), so that nothing is lost on either side of the safe bound: what a read makes of
such a number depends on the number alone (`Opened.reads_whole`). `read_literal_exact` says so of the
integer literals of a document.
-/

namespace TypedReads

namespace IntegralKind

/-- The kind that a whole number of at most 64 bits counts as. -/
def ofWhole (n : ℤ) : IntegralKind := if int.holds n then .int else .long

/-- An integer that is left of another by dropping all but the low bits of a kind. -/
def WrapsTo (kind : IntegralKind) (n w : ℤ) : Prop :=
  kind.least ≤ w ∧ w ≤ kind.greatest ∧ w ≡ n [ZMOD 2 ^ kind.width]

/-- Wrapping keeps the low bits of an integer. -/
theorem wrapsTo_wrap (kind : IntegralKind) (n : ℤ) : kind.WrapsTo n (kind.wrap n) := by
  obtain ⟨hlow, hhigh⟩ := (kind.holds_iff _).mp (kind.holds_wrap n)
  refine ⟨hlow, hhigh, ?_⟩
  have hmod : kind.wrap n % (2 ^ kind.width : ℕ) = n % (2 ^ kind.width : ℕ) := Int.bmod_emod
  unfold Int.ModEq
  exact_mod_cast hmod

/-- No other integer in the range of a kind has these low bits. -/
theorem WrapsTo.unique {kind : IntegralKind} {n w w' : ℤ} (h : kind.WrapsTo n w)
    (h' : kind.WrapsTo n w') : w = w' := by
  obtain ⟨hlow, hhigh, hmod⟩ := h
  obtain ⟨hlow', hhigh', hmod'⟩ := h'
  have hdvd := (hmod'.trans hmod.symm).dvd
  cases kind <;> simp only [least, greatest, width] at * <;> omega

/-- The least kind for a 64-bit integer holds it. -/
theorem ofWhole_holds {n : ℤ} (h : long.holds n = true) : (ofWhole n).holds n = true := by
  unfold ofWhole
  split_ifs with hint
  · exact hint
  · exact h

end IntegralKind

/-- The decimal numeral of an integer: a minus sign below zero, and digits without a zero in front of
others. -/
def DecimalText (n : ℤ) (t : Text) : Prop :=
  ∃ ds, WholeDigits ds ∧ ofDigits ds = n.natAbs ∧ t = minusText (decide (n < 0)) ++ digitText ds

/-- The decimal digits of a number are written without leading zeros. -/
theorem wholeDigits_decimalDigits (n : ℕ) : WholeDigits (decimalDigits n) := by
  refine ⟨decimalDigits_ne_nil n, fun d => lt_ten_of_mem_decimalDigits, fun hzero => ?_⟩
  rcases Nat.eq_zero_or_pos n with rfl | hpos
  · exact decimalDigits_of_lt (by decide)
  · exact absurd hzero (head?_decimalDigits_ne hpos)

/-- The text of an integer is a decimal text of it. -/
theorem decimalText_ofInt (n : ℤ) : DecimalText n (Text.ofInt n) := by
  refine ⟨_, wholeDigits_decimalDigits n.natAbs, ofDigits_decimalDigits _, ?_⟩
  unfold Text.ofInt
  rw [Text.ofNat_eq]
  by_cases hneg : n < 0
  · rw [if_pos hneg, decide_eq_true hneg]
    rfl
  · rw [if_neg hneg, decide_eq_false hneg]
    rfl

/-- The number that an integer is rounded to is nearest to it. -/
theorem Double.nearestTo_ofInt (n : ℤ) :
    Double.NearestTo (decide (n < 0)) (n.natAbs : ℚ) (Double.ofInt n) := by
  have hnearest := BinaryFormat.double.rank_nearest (by decide) n.natAbs Nat.one_pos
  rw [Nat.cast_one, div_one] at hnearest
  exact Double.nearestTo_ofRank hnearest

/-- The forms of a whole number of at most 64 bits in a document that was read. -/
inductive Json.Whole (n : ℤ) : Json → Prop
  | safe {x : Double} (hx : x.toInt? = some n)
      (hsafe : -Double.safeBound ≤ n ∧ n ≤ Double.safeBound) : Json.Whole n (.number x)
  | kept (h : Json.KeptInt n) : Json.Whole n (.integer n)

/-- An integer literal of at most 64 bits is read in one of the two forms. -/
theorem Numeral.whole_toJson {numeral : Numeral} {n : ℤ} (hn : numeral.toInt? = some n)
    (hlong : IntegralKind.long.holds n = true) : numeral.toJson.Whole n := by
  unfold toJson
  rw [hn]
  dsimp only
  split_ifs with h
  · obtain hsafe | hout := h
    · have hbound := (Double.safe_iff n).mp hsafe
      exact .safe (toInt?_toDouble hn (by omega)) hsafe
    · exact absurd hlong (by simpa using hout)
  · rw [not_or, not_not] at h
    exact .kept h

namespace Store

variable {s : Store}

/-- Either form has the same scalar reading. -/
theorem classify_whole {bound : Ref} {v : Value} {j : Json} {n : ℤ} (hv : s.Represents bound v j)
    (hj : j.Whole n) :
    Scalar.classify s v = .integral (.ofWhole n) n ∧ IntegralKind.long.holds n = true := by
  cases hj with
  | @safe x hx hsafe =>
    cases hv
    have hbound := (Double.safe_iff n).mp hsafe
    refine ⟨?_, (IntegralKind.holds_long_iff (by omega)).mpr (by omega)⟩
    unfold Scalar.classify Scalar.ofNumber
    dsimp only
    rw [safeInt?_of_toInt? hx hsafe]
    rfl
  | kept hkept =>
    cases hv
    refine ⟨?_, hkept.2⟩
    have hlow : 2 ^ 53 ≤ n.natAbs := not_lt.mp fun hlt => hkept.1 ((Double.safe_iff n).mpr hlt)
    have hint : IntegralKind.int.holds n = false := holds_wide hlow hkept.2 .int
    rw [classify_kept hkept, IntegralKind.ofWhole, hint]
    rfl

/-- An integral read narrows the number, whichever kind it counts as. -/
theorem toIntegral_ofWhole {n : ℤ} (hlong : IntegralKind.long.holds n = true)
    (kind : IntegralKind) (mode : Narrowing) :
    (Scalar.integral (.ofWhole n) n).toIntegral kind mode = narrowIntegral n kind mode :=
  Scalar.toIntegral_integral (IntegralKind.ofWhole_holds hlong) kind mode

/-- What the reads make of a whole number of at most 64 bits. -/
theorem Opened.reads_whole {a : Adapter} {members : Entries Text Json} (h : s.Opened a members)
    {key : Text} {j : Json} (hkey : members.get? key = some j) {n : ℤ} (hj : j.Whole n) :
    (∀ kind : IntegralKind, a.read s kind.target key =
      .ok ((narrowIntegral n kind a.narrowing).map kind.answer)) ∧
    a.read s .string key = .ok (some (.text (Text.ofInt n))) ∧
    a.read s .double key = .ok (some (.number (Double.ofInt n))) ∧
    IntegralKind.long.holds n = true := by
  obtain ⟨v, hv, hrep⟩ := Adapter.get?_opened h hkey
  obtain ⟨hclass, hlong⟩ := classify_whole hrep hj
  refine ⟨fun kind => ?_, ?_, ?_, hlong⟩
  · rw [read_of_entry hv, read_target, readIntegral, hclass, toIntegral_ofWhole hlong]
  · rw [read_of_entry hv]
    unfold read readString
    dsimp only
    rw [hclass]
    rfl
  · rw [read_of_entry hv]
    unfold read readFloating
    dsimp only
    rw [hclass]
    rfl

end Store

/-- The last member of a document under a key is what its adapter holds under it. -/
theorem Document.get?_of_lastMember {members : List (Text × Tree)} {key : Text} {tree : Tree}
    (h : LastMember members key tree) :
    (Entries.ofPairs (Json.normalizeMembers (Tree.toJsonMembers members))).get? key =
      some tree.toJson.normalize := by
  obtain ⟨before, after, rfl, hlast⟩ := h
  exact get?_ofPairs_members before after tree hlast

/-- A document that was opened is a text of the grammar, and its adapter holds what the members of
that text leave. -/
theorem Store.opened_of_text {s₀ s : Store} {t : Text} {mode : Narrowing} {r : Ref} {a : Adapter}
    (hopen : s₀.openDocument t mode = .ok (r, s)) (ha : s.adapter? r = some a) :
    a.narrowing = mode ∧ (∃ members, DocumentText t (.object members)) ∧
      ∀ members, DocumentText t (.object members) →
        s.Opened a (Entries.ofPairs (Json.normalizeMembers (Tree.toJsonMembers members))) := by
  obtain ⟨ms, hms, hmode, hopened⟩ := entries_of_openDocument hopen ha
  obtain ⟨members, htext, -⟩ := Document.exists_text_of_entries hms
  refine ⟨hmode, ⟨members, htext⟩, fun members htext => ?_⟩
  rw [Document.entries_of_text htext] at hms
  cases hms
  exact hopened

/-- A document that was opened is a text of the grammar. Where the last member with a key at its root
is an integer literal of at most 64 bits, the key is read as that integer in either mode: as a long
exactly, as a text in decimal, and as a double by the nearest one. A narrower read takes its low bits,
or in strict mode the integer itself if the kind has it. -/
theorem read_literal_exact {s₀ s : Store} {t : Text} {mode : Narrowing} {r : Ref} {a : Adapter}
    (hopen : s₀.openDocument t mode = .ok (r, s)) (ha : s.adapter? r = some a) :
    (∃ members, DocumentText t (.object members)) ∧
    ∀ members, DocumentText t (.object members) →
      ∀ key numeral n, LastMember members key (.number numeral) → numeral.toInt? = some n →
        -2 ^ 63 ≤ n → n ≤ 2 ^ 63 - 1 →
        a.read s .long key = .ok (some (.integer n)) ∧
        (∃ text, DecimalText n text ∧ a.read s .string key = .ok (some (.text text))) ∧
        (∃ x, Double.NearestTo (decide (n < 0)) n.natAbs x ∧
          a.read s .double key = .ok (some (.number x))) ∧
        ∀ kind : IntegralKind, kind ≠ .long →
          (mode = .truncate → ∃ w, kind.WrapsTo n w ∧
            a.read s kind.target key = .ok (some (kind.answer w))) ∧
          (mode = .strict → a.read s kind.target key = .ok ((kind.exact n).map kind.answer)) := by
  obtain ⟨hmode, htext, hopened⟩ := Store.opened_of_text hopen ha
  refine ⟨htext, fun members hmembers key numeral n hlast hn hlow hhigh => ?_⟩
  have hlong : IntegralKind.long.holds n = true := by
    rw [IntegralKind.holds_iff]
    simp only [IntegralKind.least, IntegralKind.greatest, IntegralKind.width]
    omega
  -- The key has the last member's value, which is the integer itself, kept exact.
  have hkey := Document.get?_of_lastMember hlast
  have hwhole : (Tree.number numeral).toJson.normalize.Whole n := by
    rw [Tree.toJson, numeral.normalize_toJson]
    exact Numeral.whole_toJson hn hlong
  obtain ⟨hintegral, hstring, hdouble, -⟩ := (hopened members hmembers).reads_whole hkey hwhole
  rw [hmode] at hintegral
  refine ⟨?_, ⟨_, decimalText_ofInt n, hstring⟩, ⟨_, Double.nearestTo_ofInt n, hdouble⟩,
    fun kind _ => ⟨?_, ?_⟩⟩
  · have hread := hintegral .long
    rwa [narrowIntegral_of_holds hlong] at hread
  · rintro rfl
    exact ⟨_, kind.wrapsTo_wrap n, hintegral kind⟩
  · rintro rfl
    rw [hintegral kind, narrowIntegral_strict]

/-- The least integer of 64 bits, written in a document. -/
def leastDocument : Text := units "\x7b\"a\":-9223372036854775808\x7d"

/-- Its numeral. -/
def leastNumeral : Numeral :=
  ⟨true, [9, 2, 2, 3, 3, 7, 2, 0, 3, 6, 8, 5, 4, 7, 7, 5, 8, 0, 8], none, none⟩

/-- The grammar has the document. -/
theorem leastDocument_text :
    DocumentText leastDocument (.object [(units "a", .number leastNumeral)]) := by
  have hkey : StringText (units "a") (units "a") :=
    .cons (.raw (by decide) (by decide) (by decide)) .nil
  have hwhole : WholeDigits leastNumeral.whole := ⟨by decide, by decide, by decide⟩
  have hnumeral := @NumeralText.mk true _ _ _ _ _ hwhole .absent .absent
  have htext : unit '\x7b' :: (quoted (units "a") ++ unit ':' ::
      (minusText true ++ digitText leastNumeral.whole ++ [] ++ [])) ++ [unit '\x7d'] =
        leastDocument := by decide
  rw [← htext]
  exact .single hkey (.number hnumeral)

/-- The least integer of 64 bits is read as itself, as a byte it leaves zero, and a strict read has no
byte for it. -/
theorem read_leastDocument : ∃ r s a r' s' a',
    Store.empty.openDocument leastDocument .truncate = .ok (r, s) ∧ s.adapter? r = some a ∧
      a.read s .long (units "a") = .ok (some (.integer (-2 ^ 63))) ∧
      a.read s .byte (units "a") = .ok (some (.number (.ofInt 0))) ∧
      Store.empty.openDocument leastDocument .strict = .ok (r', s') ∧ s'.adapter? r' = some a' ∧
      a'.read s' .long (units "a") = .ok (some (.integer (-2 ^ 63))) ∧
      a'.read s' .byte (units "a") = .ok none := by
  have hentries := Document.entries_of_text leastDocument_text
  obtain ⟨r, s, a, hopen, ha, -⟩ := Store.empty.openDocument_ok hentries .truncate
  obtain ⟨r', s', a', hopen', ha', -⟩ := Store.empty.openDocument_ok hentries .strict
  have hlast : LastMember [(units "a", .number leastNumeral)] (units "a") (.number leastNumeral) :=
    ⟨[], [], rfl, fun e he => absurd he List.not_mem_nil⟩
  have hint : leastNumeral.toInt? = some (-2 ^ 63) := by decide +kernel
  obtain ⟨-, hread⟩ := read_literal_exact hopen ha
  obtain ⟨-, hread'⟩ := read_literal_exact hopen' ha'
  obtain ⟨hlong, -, -, hnarrow⟩ :=
    hread _ leastDocument_text _ _ _ hlast hint (by decide) (by decide)
  obtain ⟨hlong', -, -, hnarrow'⟩ :=
    hread' _ leastDocument_text _ _ _ hlast hint (by decide) (by decide)
  -- The low bits of the integer are all zeros, and no byte is the integer itself.
  obtain ⟨w, hw, hbyte⟩ := (hnarrow .byte (by decide)).1 rfl
  have hzero : IntegralKind.byte.WrapsTo (-2 ^ 63) 0 := ⟨by decide, by decide, by decide⟩
  rw [hw.unique hzero] at hbyte
  have hbyte' := (hnarrow' .byte (by decide)).2 rfl
  have hnone : IntegralKind.byte.exact (-2 ^ 63) = none := by decide
  rw [hnone] at hbyte'
  exact ⟨r, s, a, r', s', a', hopen, ha, hlong, hbyte, hopen', ha', hlong', hbyte'⟩

end TypedReads
