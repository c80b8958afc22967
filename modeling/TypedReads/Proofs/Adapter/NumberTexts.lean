import TypedReads.Proofs.Adapter.Boxes

/-!
# The two texts of a number

A number has a text as a typed read and a text in a document, and the two are formed apart: a read
classifies the number first, a document writes what a box stands for. `numeric_texts` says that they
are the same text with two exceptions (`Store.Narrowed`), where the document keeps what is stored and
the read does not: an integer of more than 64 bits, which is read as a double, and a box with an integer
outside the range of its kind, which is read by its low bits.

Between the two stands `Double.toText_of_safeInt?`: the shortest decimal of a safe integer is laid out as
its digits.
-/

namespace TypedReads

/-- A number that is a safe integer is shown with the digits of the integer. -/
theorem Double.toText_of_safeInt? {x : Double} {n : ℤ} (h : x.safeInt? = some n) :
    x.toText = Text.ofInt n := by
  obtain ⟨hint, hsafe⟩ := Store.toInt?_of_safeInt? h
  rw [safe_iff] at hsafe
  cases x with
  | nan => cases hint
  | infinite negative => cases hint
  | finite negative rank =>
    have hmag := magnitude_of_toInt? hint
    by_cases hzero : rank.val = 0
    · -- Zero is shown without its sign.
      have hrank : rank = ⟨0, BinaryFormat.double_ranks_pos⟩ := Fin.ext hzero
      rw [hrank, toInt?_zero] at hint
      cases hint
      rw [toText, if_pos hzero]
      decide +kernel
    · have hpos : 0 < n.natAbs := by
        have := magnitude_pos_iff.mpr (Nat.pos_of_ne_zero hzero)
        rw [hmag] at this
        exact Nat.pos_of_mul_pos_right this
      obtain ⟨m, hm⟩ := exists_shortest_whole hmag
      -- Below `2 ^ 53` the shortest decimal spells the integer itself, in front of the point.
      obtain ⟨-, rfl⟩ | ⟨hge, -⟩ := shortest_about_safe hmag hm
      · have hshown := shownWhole_of_lt hpos hm (by omega)
        obtain ⟨m', hm', hdigits⟩ := exists_of_shownWhole hshown
        obtain rfl : m' = n.natAbs := by exact_mod_cast hm'.symm.trans hm
        have hnumeral := toInt?_layout_whole negative hshown hdigits
        rw [← numeral_of_ne_zero negative hzero] at hnumeral
        rw [toInt?_finite hmag] at hint
        exact (numeralText_toText negative rank).eq_ofInt (hnumeral.trans hint) (by omega)
      · omega

namespace Store

/-- A number, an integer of any size, or a box with any number in it. -/
inductive Numeric (s : Store) : Value → Prop
  | number (x : Double) : Numeric s (.number x)
  | integer (n : ℤ) : Numeric s (.integer n)
  | box {r : Ref} {kind : NumericKind} {x : Double} (hr : s.get? r = some (.numberBox kind x)) :
      Numeric s (.object r)

/-- The numbers that a read shows as another number than the one stored: an integer of more than 64
bits as the double nearest to it, and a boxed integer that its kind does not hold as its low bits. -/
inductive Narrowed (s : Store) : Value → Text → Prop
  | wide {n : ℤ} (hn : IntegralKind.long.holds n = false) :
      Narrowed s (.integer n) (Double.ofInt n).toText
  | unheld {r : Ref} {kind : IntegralKind} {x : Double} {n : ℤ}
      (hr : s.get? r = some (.numberBox (.integral kind) x)) (hx : x.safeInt? = some n)
      (hn : kind.holds n = false) : Narrowed s (.object r) (Text.ofInt (kind.wrap n))

/-- A value is read as a text, be it by itself or through an adapter that holds it. -/
def ReadAsText (s : Store) (v : Value) (t : Text) : Prop :=
  s.readString v = .ok (some t) ∧
    ∀ (a : Adapter) (key : Text), a.get? s key = some v → a.read s .string key = .ok (some (.text t))

/-- A value is written as a text wherever it stands in a document. -/
def WrittenAs (s : Store) (v : Value) (t : Text) : Prop :=
  ∃ j, s.toJson v = .ok j ∧ ∀ indent depth, j.writeAt indent depth = t

section Texts

variable {s : Store} {v : Value} {t : Text}

/-- The text that a value is read as is one of those that numbers and texts have. -/
theorem readAsText_of_readString (h : s.readString v = .ok (some t)) : s.ReadAsText v t := by
  refine ⟨h, fun a key hv => ?_⟩
  unfold Adapter.read
  rw [hv]
  dsimp only [Store.read]
  rw [h]
  rfl

/-- What a value is encoded as is written on one line as the line of the value. -/
theorem encodeLine_of_encode {j : Json} (h : s.encode v = .ok j) :
    s.toJson v = .ok j ∧ s.encodeLine v = .ok (j.writeAt 0 0) := by
  have hjson := toJson_eq_ok_iff.mpr h
  exact ⟨hjson, by rw [encodeLine, hjson]; rfl⟩

/-- A number that is written is finite, and is written as it is shown. -/
theorem encode_number {x : Double} (h : s.encode v = encodeLeaf (.number x))
    (hline : s.encodeLine v = .ok t) : s.WrittenAs v t ∧ t = x.toText := by
  by_cases hx : x.isFinite = true
  · have hleaf : encodeLeaf (.number x) = .ok (.number x) := if_pos hx
    obtain ⟨hjson, hwritten⟩ := encodeLine_of_encode (h.trans hleaf)
    rw [hwritten] at hline
    cases hline
    exact ⟨⟨_, hjson, fun _ _ => rfl⟩, rfl⟩
  · -- An infinite number has no JSON form.
    have hleaf : encodeLeaf (.number x) = .error (.here (.number x)) := if_neg hx
    unfold encodeLine toJson at hline
    rw [h, hleaf] at hline
    dsimp only at hline
    cases hexplain : s.explain (.here (.number x)) with
    | ok e =>
      rw [hexplain] at hline
      cases hline
    | error f =>
      rw [hexplain] at hline
      cases hline

/-- An integer of any size is written with its digits. -/
theorem encode_integer {n : ℤ} (hline : s.encodeLine (.integer n) = .ok t) :
    s.WrittenAs (.integer n) t ∧ t = Text.ofInt n := by
  have hencode : s.encode (.integer n) = .ok (.integer n) := encodeWithin_leaf (by simp) []
  obtain ⟨hjson, hwritten⟩ := encodeLine_of_encode hencode
  rw [hwritten] at hline
  cases hline
  exact ⟨⟨_, hjson, fun _ _ => rfl⟩, rfl⟩

/-- A number is shown alike whether or not it counts as an integer. -/
theorem scalarText_ofNumber (x : Double) :
    s.scalarText (Scalar.ofNumber x) = .ok (some x.toText) := by
  unfold Scalar.ofNumber
  cases hx : x.safeInt? with
  | none => rfl
  | some n => rw [Double.toText_of_safeInt? hx, scalarText]

/-- A box is written as the number in it, one of 32 bits by its shortest text. -/
theorem encode_box {r : Ref} {kind : NumericKind} {x : Double}
    (hr : s.get? r = some (.numberBox kind x)) :
    s.encode (.object r) =
      encodeLeaf (.number (if kind = .floating .float then x.shortestSingle else x)) := by
  rw [encode, encodeWithin_object hr]
  rcases kind with k | _ | _ <;> rfl

/-- A box with a finite number has a text in a document. -/
theorem encodeLine_box {r : Ref} {kind : NumericKind} {x : Double}
    (hr : s.get? r = some (.numberBox kind x)) (hx : x.isFinite = true) :
    s.encodeLine (.object r) =
      .ok (if kind = .floating .float then x.shortestSingle else x).toText := by
  have hfinite : (if kind = .floating .float then x.shortestSingle else x).isFinite = true := by
    split_ifs
    · exact Double.isFinite_shortestSingle hx
    · exact hx
  have hencode := encode_box hr
  rw [encodeLeaf, if_pos hfinite] at hencode
  exact (encodeLine_of_encode hencode).2

/-- The text of a box, but for what its kind does not hold. -/
theorem scalarText_ofBox {kind : NumericKind} {x : Double}
    (hheld : ∀ k n, kind = .integral k → x.safeInt? = some n → k.holds n = true) :
    s.scalarText (Scalar.ofBox kind x) =
      .ok (some (if kind = .floating .float then x.shortestSingle else x).toText) := by
  rcases kind with k | _ | _
  · unfold Scalar.ofBox
    rw [if_neg (by simp)]
    cases hx : x.safeInt? with
    | none => rfl
    | some n =>
      dsimp only
      rw [IntegralKind.wrap_of_holds (hheld k n rfl hx), Double.toText_of_safeInt? hx, scalarText]
  · rfl
  · rfl

end Texts

end Store

/-- A number that has a text in a document has one as a read. It is the same text unless the read
narrows the number, and then it is that of what the number is narrowed to. In a document an integer has
its digits, whatever its size. -/
theorem numeric_texts (s : Store) {v : Value} {t : Text} (hv : s.Numeric v)
    (h : s.encodeLine v = .ok t) :
    ((∀ u, ¬ s.Narrowed v u) → s.ReadAsText v t) ∧ (∀ u, s.Narrowed v u → s.ReadAsText v u) ∧
      s.WrittenAs v t ∧ ∀ n, v = .integer n → t = Text.ofInt n := by
  cases hv with
  | number x =>
    have hencode := Store.encodeWithin_leaf (s := s) (v := .number x) (by simp) []
    obtain ⟨hwritten, rfl⟩ := Store.encode_number hencode h
    refine ⟨fun _ => Store.readAsText_of_readString (Store.scalarText_ofNumber x), ?_, hwritten,
      nofun⟩
    rintro u ⟨⟩
  | integer n =>
    obtain ⟨hwritten, rfl⟩ := Store.encode_integer h
    refine ⟨fun hheld => ?_, ?_, hwritten, fun _ hn => congrArg Text.ofInt (Value.integer.inj hn)⟩
    -- An integer of 64 bits is read as it is, any other as its nearest double.
    · cases hn : IntegralKind.long.holds n with
      | false => exact absurd (.wide hn) (hheld _)
      | true =>
        refine Store.readAsText_of_readString ?_
        rw [Store.readString, Scalar.classify, Scalar.ofInteger, if_pos hn, Store.scalarText]
    · rintro u ⟨hn⟩
      refine Store.readAsText_of_readString ?_
      rw [Store.readString, Scalar.classify, Scalar.ofInteger, if_neg (by simp [hn]),
        Store.scalarText]
  | @box r kind x hr =>
    obtain ⟨hwritten, rfl⟩ := Store.encode_number (Store.encode_box hr) h
    refine ⟨fun hheld => ?_, ?_, hwritten, nofun⟩
    -- A box of an integral kind that holds its number is read as it is, any other wraps.
    · refine Store.readAsText_of_readString ?_
      rw [Store.readString, Store.classify_box hr]
      refine Store.scalarText_ofBox fun k n hk hx => ?_
      subst hk
      by_contra hn
      exact hheld _ (.unheld hr hx (Bool.eq_false_iff.mpr hn))
    · rintro u (_ | ⟨hr', hx, hn⟩)
      cases hr.symm.trans hr'
      refine Store.readAsText_of_readString ?_
      rw [Store.readString, Store.classify_box hr]
      simp only [Scalar.ofBox, hx, Store.scalarText]

/-- The first integer past 64 bits is written with its digits, and read as the double nearest to it. -/
theorem wide_integer_texts :
    Store.empty.encodeLine (.integer (2 ^ 63)) = .ok (units "9223372036854775808") ∧
      Store.empty.readString (.integer (2 ^ 63)) = .ok (some (units "9223372036854776000")) := by
  have hdigits : Text.ofInt (2 ^ 63) = units "9223372036854775808" := by decide +kernel
  have hshown : (Double.ofInt (2 ^ 63)).toText = units "9223372036854776000" := by decide +kernel
  have hencode := Store.encodeWithin_leaf (s := Store.empty) (v := .integer (2 ^ 63)) (by simp) []
  constructor
  · rw [← hdigits]
    exact (Store.encodeLine_of_encode hencode).2
  · rw [← hshown]
    rfl

/-- A box of 8 bits with an integer that has more, and a box with the 32-bit number next to `1.1`. -/
def crate : Store :=
  ⟨#[.numberBox (.integral .byte) (Double.ofInt 300),
    .numberBox (.floating .float) (Double.ofRatio false 11 10).toSingle], 0⟩

/-- The former has two texts, and the latter has one. -/
theorem crate_texts :
    crate.Numeric (.object 0) ∧ crate.encodeLine (.object 0) = .ok (units "300") ∧
      crate.ReadAsText (.object 0) (units "44") ∧
    crate.Numeric (.object 1) ∧ crate.encodeLine (.object 1) = .ok (units "1.1") ∧
      crate.ReadAsText (.object 1) (units "1.1") := by
  have hbyte : crate.get? 0 = some (.numberBox (.integral .byte) (Double.ofInt 300)) := rfl
  have hfloat : crate.get? 1 =
      some (.numberBox (.floating .float) (Double.ofRatio false 11 10).toSingle) := rfl
  have hbyteText : (Double.ofInt 300).toText = units "300" := by decide +kernel
  have hfloatText : (Double.ofRatio false 11 10).toSingle.shortestSingle.toText = units "1.1" := by
    decide +kernel
  have hbyteLine : crate.encodeLine (.object 0) = .ok (units "300") := by
    rw [Store.encodeLine_box hbyte (by decide +kernel), if_neg (by decide), hbyteText]
  have hfloatLine : crate.encodeLine (.object 1) = .ok (units "1.1") := by
    rw [Store.encodeLine_box hfloat (by decide +kernel), if_pos rfl, hfloatText]
  obtain ⟨-, hnarrowed, -, -⟩ := numeric_texts crate (.box hbyte) hbyteLine
  obtain ⟨hsame, -, -, -⟩ := numeric_texts crate (.box hfloat) hfloatLine
  have hlow : Text.ofInt (IntegralKind.byte.wrap 300) = units "44" := by decide +kernel
  refine ⟨.box hbyte, hbyteLine, ?_, .box hfloat, hfloatLine, hsame ?_⟩
  · rw [← hlow]
    exact hnarrowed _ (.unheld hbyte (by decide +kernel) (by decide))
  · -- A box of a floating kind holds every number.
    rintro u (_ | ⟨hr, -, -⟩)
    cases hfloat.symm.trans hr

end TypedReads
