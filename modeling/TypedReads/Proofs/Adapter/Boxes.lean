import TypedReads.Proofs.Number.Single
import TypedReads.Proofs.Read.Literal
import TypedReads.Proofs.Value.RoundTrip
import TypedReads.Proofs.Value.WellFormed
import TypedReads.Value.Native

/-!
# Native values written and read again

The text of an adapter does not show the native type of a value, so what was a box is a number or a text
once the text is opened. The read of that type gives the same answer nevertheless, but for the sign of
zero (`read_built_reopened`): an integer of any kind comes back whole, a double comes back as itself or as
the integer that it is, and the number that stands for a 32-bit one is rounded to it.
-/

namespace TypedReads

/-- The answer of a read without the sign of zero. -/
def Coerced.unsigned : Coerced → Coerced
  | .number x => .number x.withoutNegativeZero
  | c => c

section Floating

/-- The number that is shown for one of a floating kind. -/
def FloatingKind.shown : FloatingKind → Double → Double
  | .float, x => x.shortestSingle
  | .double, x => x

/-- What is not finite is shown as it is. -/
theorem Double.shortestSingle_of_not_finite {x : Double} (h : ¬ x.isFinite = true) :
    x.shortestSingle = x := by
  cases x with
  | finite negative rank => exact absurd rfl h
  | nan => decide
  | infinite negative => cases negative <;> decide

variable {kind : FloatingKind} {x y : Double}

/-- Showing a number keeps it finite or not. -/
theorem FloatingKind.isFinite_shown (kind : FloatingKind) (x : Double) :
    (kind.shown x).isFinite = x.isFinite := by
  cases kind with
  | double => rfl
  | float =>
    by_cases hx : x.isFinite = true
    · rw [hx]
      exact Double.isFinite_shortestSingle hx
    · exact congrArg Double.isFinite (Double.shortestSingle_of_not_finite hx)

/-- The number shown for one of a kind is widened to it, in either mode, but for the sign of zero. -/
theorem FloatingKind.widen_shown (hx : kind = .float → x.toSingle = x)
    (hy : y.withoutNegativeZero = (kind.shown x).withoutNegativeZero) (mode : Narrowing) :
    ∃ z, Scalar.widen y kind mode = some z ∧ z.withoutNegativeZero = x.withoutNegativeZero := by
  cases kind with
  | double => exact ⟨y, rfl, hy⟩
  | float =>
    have hsame : y.toSingle.withoutNegativeZero = x.withoutNegativeZero :=
      (Double.toSingle_congr hy).trans (Double.toSingle_shortestSingle (hx rfl))
    -- Strict mode refuses a finite number that overflows, and here none does.
    have hfinite : y.isFinite = y.toSingle.isFinite :=
      (Double.isFinite_congr hy).trans
        ((FloatingKind.isFinite_shown .float x).trans (Double.isFinite_congr hsame).symm)
    refine ⟨y.toSingle, if_neg fun h => h.2.2 ?_, hsame⟩
    rw [← hfinite]
    exact h.2.1

end Floating

namespace Native

/-- A value that the constructor for a target builds, if it is finite. That for longs takes numbers and
integers, and builds no box. -/
inductive Built (s : Store) : Target → Value → Prop
  | small {kind : IntegralKind} {x : Double} {r : Ref} (hkind : kind ≠ .long)
      (hr : s.get? r = some (number (.integral kind) x)) : Built s kind.target (.object r)
  | float {x : Double} {r : Ref} (hfinite : x.toSingle.isFinite = true)
      (hr : s.get? r = some (number (.floating .float) x)) : Built s .float (.object r)
  | double {x : Double} {r : Ref} (hfinite : x.isFinite = true)
      (hr : s.get? r = some (number (.floating .double) x)) : Built s .double (.object r)
  | long (n : ℤ) : Built s .long (Native.long n)
  | longOfNumber (x : Double) : Built s .long (Native.longOfNumber x)
  | char {t : Text} {o : Object} {r : Ref} (ht : char t = .ok o) (hr : s.get? r = some o) :
      Built s .char (.object r)

/-- What a small box holds is an integer of its kind. -/
theorem exists_castIntegral (x : Double) {kind : IntegralKind} (hkind : kind ≠ .long) :
    ∃ n, kind.holds n = true ∧ castIntegral x kind = Double.ofInt n := by
  refine ⟨kind.wrap (x.saturate .int), kind.holds_wrap _, ?_⟩
  cases kind with
  | long => exact absurd rfl hkind
  | _ => rfl

end Native

namespace Store

section Entries

variable {s : Store}

/-- Entries have the keys of their canonical forms. -/
theorem CanonicalEntries.keys {es : Entries Value Value} {members : Entries Text Json}
    (h : s.CanonicalEntries es members) : es.keys = members.keys.map Value.text := by
  induction es generalizing members with
  | nil =>
    cases h
    rfl
  | cons e es ih =>
    cases h with
    | cons h hrest => exact congrArg (_ :: ·) (ih hrest)

/-- What stands under a key has its canonical form under the key. -/
theorem CanonicalEntries.get? {es : Entries Value Value} {members : Entries Text Json}
    (h : s.CanonicalEntries es members) {key : Text} {v : Value}
    (hv : es.get? (.text key) = some v) : ∃ j, members.get? key = some j ∧ s.Canonical v j := by
  induction es generalizing members with
  | nil => cases hv
  | cons e es ih =>
    cases h with
    | @cons key' v' j _ members h hrest =>
      unfold Entries.get? at hv ⊢
      by_cases hkey : key' = key
      · rw [if_pos (congrArg Value.text hkey)] at hv
        cases hv
        rw [if_pos hkey]
        exact ⟨j, rfl, h⟩
      · rw [if_neg fun heq => hkey (Value.text_injective heq)] at hv
        rw [if_neg hkey]
        exact ih hrest hv

end Entries

section Reads

variable {s : Store} {bound : Ref} {v : Value}

/-- An integer that is stored as a double is still whole once it is read again. -/
theorem whole_canonical {x : Double} {n : ℤ} (hx : x.toInt? = some n) (hn : n.natAbs < 2 ^ 53) :
    x.canonical.Whole n := by
  have hwide : ¬ x.Wide := by
    rintro ⟨m, hm, hlow, -⟩
    rw [hx] at hm
    cases hm
    omega
  rw [Double.canonical_of_not_wide hwide]
  exact .safe ((Double.toInt?_withoutNegativeZero _).trans hx) ((Double.safe_iff n).mpr hn)

/-- An integer that a kind holds is read as it is. -/
theorem read_whole {j : Json} {n : ℤ} (hv : s.Represents bound v j) (hj : j.Whole n)
    {kind : IntegralKind} (hkind : kind.holds n = true) (mode : Narrowing) :
    s.read kind.target v mode = .ok (some (kind.answer n)) := by
  obtain ⟨hclass, hlong⟩ := classify_whole hv hj
  rw [read_target, readIntegral, hclass, toIntegral_ofWhole hlong, narrowIntegral_of_holds hkind]
  rfl

/-- A number that was read again is read as a floating number of a kind by widening it, or the zero of
the other sign. -/
theorem toFloating_canonical {x : Double} (hv : s.Represents bound v x.canonical)
    (kind : FloatingKind) (mode : Narrowing) :
    ∃ y, y.withoutNegativeZero = x.withoutNegativeZero ∧
      (Scalar.classify s v).toFloating kind mode = Scalar.widen y kind mode := by
  by_cases hwide : x.Wide
  · -- The number has become the integer that its text spells.
    have hread := Double.canonical_of_wide hwide
    rw [hread] at hv
    cases hv
    refine ⟨x, rfl, ?_⟩
    rw [classify_kept (keptInt_of_canonical hread)]
    change Scalar.widen (Double.ofInt _) kind mode = _
    rw [(Double.of_canonical_integer hread).1]
  · rw [Double.canonical_of_not_wide hwide] at hv
    cases hv
    unfold Scalar.classify Scalar.ofNumber
    dsimp only
    -- A safe integer is classified as one, of which a double is made again.
    cases hsafe : x.withoutNegativeZero.safeInt? with
    | some n =>
      obtain ⟨hint, hbound⟩ := toInt?_of_safeInt? hsafe
      have hsmall := (Double.safe_iff n).mp hbound
      refine ⟨Double.ofInt n, ?_, rfl⟩
      rw [Double.withoutNegativeZero_ofInt hint hsmall.le, Double.withoutNegativeZero_withoutNegativeZero]
    | none =>
      refine ⟨_, Double.withoutNegativeZero_withoutNegativeZero x, ?_⟩
      cases kind <;> rfl

/-- The canonical form of a plain number. -/
theorem Canonical.number_eq {x : Double} {j : Json} (h : s.Canonical (.number x) j) :
    x.isFinite = true ∧ j = x.canonical := by
  cases h with
  | number hfinite => exact ⟨hfinite, rfl⟩

/-- The canonical form of a box that is no 32-bit number. -/
theorem Canonical.box_eq {r : Ref} {kind : NumericKind} {x : Double} {j : Json}
    (hr : s.get? r = some (.numberBox kind x)) (hkind : kind ≠ .floating .float)
    (h : s.Canonical (.object r) j) : j = x.canonical := by
  obtain ⟨_, ho, -⟩ | ⟨_, _, y, ho, hj, hy⟩ | ⟨_, _, ho, -⟩ | ⟨_, _, ho, -⟩ := h.cases_object hr
  · cases ho
  · cases ho
    rw [if_neg hkind] at hy
    subst hy
    exact hj.number_eq.2
  · cases ho
  · exact absurd ho contents_numberBox_ne

/-- The canonical form of a 32-bit number is that of the number which stands for it in text. -/
theorem Canonical.single_eq {r : Ref} {x : Double} {j : Json}
    (hr : s.get? r = some (.numberBox (.floating .float) x)) (hx : x.isFinite = true)
    (h : s.Canonical (.object r) j) : j = x.shortestSingle.canonical := by
  obtain ⟨_, ho, -⟩ | ⟨_, _, y, ho, hj, hy⟩ | ⟨_, _, ho, -⟩ | ⟨_, _, ho, -⟩ := h.cases_object hr
  · cases ho
  · cases ho
    rw [if_pos rfl] at hy
    have hread := Double.floating?_toText (Double.isFinite_shortestSingle hx)
    rw [show x.shortestSingle.toText = x.toSingleText from rfl, hy] at hread
    cases hread
    rw [hj.number_eq.2, Double.canonical_withoutNegativeZero]
  · cases ho
  · exact absurd ho contents_numberBox_ne

/-- The canonical form of an integer of 64 bits. -/
theorem Canonical.integer_whole {n : ℤ} {j : Json} (hlong : IntegralKind.long.holds n = true)
    (h : s.Canonical (.integer n) j) : j.Whole n := by
  cases h with
  | safe hsafe =>
    have hsmall := (Double.safe_iff n).mp hsafe
    exact .safe (Double.toInt?_ofInt hsmall.le) hsafe
  | long hwide _ => exact .kept ⟨hwide, hlong⟩
  | beyond hout =>
    rw [hlong] at hout
    cases hout

/-- What a box is read as before it is written. -/
theorem classify_box {r : Ref} {kind : NumericKind} {x : Double}
    (hr : s.get? r = some (.numberBox kind x)) :
    Scalar.classify s (.object r) = Scalar.ofBox kind x := by
  unfold Scalar.classify
  dsimp only
  rw [hr]

/-- A small box counts as the integer in it. -/
theorem classify_small_box {r : Ref} {kind : IntegralKind} {x : Double} {n : ℤ}
    (hr : s.get? r = some (.numberBox (.integral kind) x)) (hx : x.toInt? = some n)
    (hn : kind.holds n = true) (hsmall : n.natAbs < 2 ^ 53) :
    Scalar.classify s (.object r) = .integral kind n := by
  have hsafe : x.safeInt? = some n := safeInt?_of_toInt? hx ((Double.safe_iff n).mpr hsmall)
  simp only [classify_box hr, Scalar.ofBox, hsafe, IntegralKind.wrap_of_holds hn]

/-- A small box is read as the integer in it. -/
theorem read_small_box {r : Ref} {kind : IntegralKind} {x : Double} {n : ℤ}
    (hr : s.get? r = some (.numberBox (.integral kind) x)) (hx : x.toInt? = some n)
    (hn : kind.holds n = true) (hsmall : n.natAbs < 2 ^ 53) (mode : Narrowing) :
    s.read kind.target (.object r) mode = .ok (some (kind.answer n)) := by
  rw [read_target, readIntegral, classify_small_box hr hx hn hsmall, Scalar.toIntegral, if_pos rfl]
  rfl

/-- A box of a floating kind is read as the number in it. -/
theorem toFloating_box {r : Ref} {kind : FloatingKind} {x : Double}
    (hr : s.get? r = some (.numberBox (.floating kind) x)) (mode : Narrowing) :
    (Scalar.classify s (.object r)).toFloating kind mode = some x := by
  rw [classify_box hr, Scalar.ofBox, Scalar.toFloating, if_pos rfl]

/-- Two values have answers to a read that differ in the sign of zero at most. -/
def ReadAlike (s s' : Store) (target : Target) (mode : Narrowing) (v v' : Value) : Prop :=
  ∃ c c', s.read target v mode = .ok (some c) ∧ s'.read target v' mode = .ok (some c') ∧
    c'.unsigned = c.unsigned

section Alike

variable {s' : Store} {v' : Value} {j : Json}

/-- Numbers that differ in the sign of zero at most are alike. -/
theorem readAlike_of_floating {kind : FloatingKind} {mode : Narrowing} {x y : Double}
    (hx : (Scalar.classify s v).toFloating kind mode = some x)
    (hy : (Scalar.classify s' v').toFloating kind mode = some y)
    (hsame : y.withoutNegativeZero = x.withoutNegativeZero) :
    ReadAlike s s' kind.target mode v v' := by
  refine ⟨.number x, .number y, ?_, ?_, congrArg Coerced.number hsame⟩
  · rw [read_floating, readFloating, hx]
    rfl
  · rw [read_floating, readFloating, hy]
    rfl

/-- An integer of 64 bits is read alike. -/
theorem readAlike_integer {n : ℤ} (hn : IntegralKind.long.holds n = true)
    (hj : s.Canonical (.integer n) j) (hv' : s'.Represents bound v' j) (mode : Narrowing) :
    ReadAlike s s' .long mode (.integer n) v' := by
  refine ⟨.integer n, .integer n, ?_, read_whole hv' (hj.integer_whole hn) hn mode, rfl⟩
  unfold read readIntegral Scalar.classify Scalar.ofInteger
  dsimp only
  rw [if_pos hn]
  rfl

/-- A box of a small kind is read alike. -/
theorem readAlike_small {r : Ref} {kind : IntegralKind} {x : Double} (hkind : kind ≠ .long)
    (hr : s.get? r = some (Native.number (.integral kind) x)) (hj : s.Canonical (.object r) j)
    (hv' : s'.Represents bound v' j) (mode : Narrowing) :
    ReadAlike s s' kind.target mode (.object r) v' := by
  obtain ⟨n, hn, hcast⟩ := Native.exists_castIntegral x hkind
  have hsmall := IntegralKind.natAbs_lt_of_holds hkind hn
  have hint := Double.toInt?_ofInt hsmall.le
  have hbox : s.get? r = some (.numberBox (.integral kind) (.ofInt n)) := by
    rw [hr, ← hcast]
    rfl
  have hwhole : j.Whole n := by
    rw [hj.box_eq hbox nofun]
    exact whole_canonical hint hsmall
  exact ⟨kind.answer n, kind.answer n, read_small_box hbox hint hn hsmall mode,
    read_whole hv' hwhole hn mode, rfl⟩

/-- A box of a floating kind is read alike: the number shown for it is widened to what the box holds. -/
theorem readAlike_floating {r : Ref} {kind : FloatingKind} {x : Double} (hx : kind = .float → x.toSingle = x)
    (hr : s.get? r = some (.numberBox (.floating kind) x)) (hj : j = (kind.shown x).canonical)
    (hv' : s'.Represents bound v' j) (mode : Narrowing) :
    ReadAlike s s' kind.target mode (.object r) v' := by
  rw [hj] at hv'
  obtain ⟨y, hy, hread⟩ := toFloating_canonical hv' kind mode
  obtain ⟨z, hz, hsame⟩ := FloatingKind.widen_shown hx hy mode
  exact readAlike_of_floating (toFloating_box hr mode) (hread.trans hz) hsame

/-- A box of a single unit is read alike. -/
theorem readAlike_char {r : Ref} {t : Text} (hr : s.get? r = some (.charBox t)) (hlength : t.length = 1)
    (hj : s.Canonical (.object r) j) (hv' : s'.Represents bound v' j) (mode : Narrowing) :
    ReadAlike s s' .char mode (.object r) v' := by
  have hform : j = .text t := by
    obtain ⟨_, ho, rfl⟩ | ⟨_, _, _, ho, -⟩ | ⟨_, _, ho, -⟩ | ⟨_, _, ho, -⟩ := hj.cases_object hr <;>
      cases ho
    rfl
  rw [hform] at hv'
  cases hv'
  have hbefore : Scalar.classify s (.object r) = .char t := by
    unfold Scalar.classify
    dsimp only
    rw [hr]
  have hafter : (Scalar.text t).toChar = some t := if_pos hlength
  refine ⟨.text t, .text t, ?_, ?_, rfl⟩
  · unfold read readChar
    rw [hbefore]
    rfl
  · exact congrArg (fun t => Except.ok (Option.map Coerced.text t)) hafter

/-- A native value and what its canonical form is read as answer the read of their type alike. -/
theorem readAlike_built {target : Target} (hbuilt : Native.Built s target v) (hj : s.Canonical v j)
    (hv' : s'.Represents bound v' j) (mode : Narrowing) : ReadAlike s s' target mode v v' := by
  cases hbuilt with
  | small hkind hr => exact readAlike_small hkind hr hj hv' mode
  | @float x _ hfinite hr =>
    exact readAlike_floating (fun _ => x.toSingle_toSingle) hr (hj.single_eq hr hfinite) hv' mode
  | @double x _ _ hr =>
    have hkind : FloatingKind.double = .float → x.toSingle = x := nofun
    exact readAlike_floating hkind hr (hj.box_eq hr nofun) hv' mode
  | long n => exact readAlike_integer (IntegralKind.holds_wrap _ n) hj hv' mode
  | longOfNumber x => exact readAlike_integer (x.holds_saturate .long) hj hv' mode
  | @char t o r ht hr =>
    unfold Native.char at ht
    split_ifs at ht with hlength
    cases ht
    exact readAlike_char hr hlength hj hv' mode

end Alike

end Reads

end Store

/-- A native value under a key of an adapter has an answer to the read of its type. Once the text of the
adapter is opened in the same mode, the key has that answer there too, but for the sign of zero. -/
theorem read_built_reopened {s : Store} (hwell : s.WellFormed) {r₀ : Ref} {a : Adapter}
    (ha : s.adapter? r₀ = some a) {key : Text} {v : Value} (hv : a.get? s key = some v)
    {target : Target} (hbuilt : Native.Built s target v) {width : Double} {t : Text}
    (ht : a.toText s width = .ok t) (s₁ : Store) :
    ∃ r s' a' c c', s₁.openDocument t a.narrowing = .ok (r, s') ∧ s'.adapter? r = some a' ∧
      a.read s target key = .ok (some c) ∧ a'.read s' target key = .ok (some c') ∧
      c'.unsigned = c.unsigned := by
  have hr₀ : s.get? r₀ = some (.adapter a) := by
    unfold Store.adapter? at ha
    split at ha
    · cases ha
      assumption
    · cases ha
  obtain ⟨es, hes⟩ := hwell r₀ _ hr₀
  have hentries : a.entries s = es := Store.entriesAt_of_get? hes
  -- The text is decoded to the canonical forms of the entries, under the same keys.
  obtain ⟨members, hcanonical, hread⟩ := Store.entries_of_encodeText hes rfl ht
  have hdistinct : (Entries.keys members).Nodup := by
    have hnodup : es.keys.Nodup := hwell a.backing _ hes
    rw [hcanonical.keys] at hnodup
    exact hnodup.of_map _
  obtain ⟨r, s', a', hopen, ha', hmode, hopened, -⟩ :=
    s₁.openDocument_ok (hread width t ht) a.narrowing
  rw [Entries.ofPairs_of_nodup hdistinct] at hopened
  have hentry : (a.entries s).get? (.text key) = some v := (Option.filter_eq_some_iff.mp hv).1
  -- The value and what represents its canonical form are read alike.
  obtain ⟨j, hkey, hj⟩ := hcanonical.get? (hentries ▸ hentry)
  obtain ⟨v', hv', hrep⟩ := Adapter.get?_opened hopened hkey
  obtain ⟨c, c', hc, hc', hsame⟩ := Store.readAlike_built hbuilt hj hrep a.narrowing
  refine ⟨r, s', a', c, c', hopen, ha', ?_, ?_, hsame⟩
  · rw [Store.read_of_entry hentry, hc]
  · rw [Store.read_of_entry hv', hmode, hc']

/-- A box of the 32-bit number nearest to `1.1`, a map that holds it, and a strict adapter on the map. -/
def boxStore : Store :=
  ⟨#[Native.number (.floating .float) (Double.ofRatio false 11 10),
    .map [(.text (units "x"), .object 0)], .adapter ⟨1, .strict⟩], 0⟩

/-- The number in the box is finite. -/
theorem isFinite_boxed : (Double.ofRatio false 11 10).toSingle.isFinite = true := by decide +kernel

/-- The adapter has a text. -/
theorem toText_boxStore : ∃ t, Adapter.toText ⟨1, .strict⟩ boxStore (.ofInt 0) = .ok t := by
  have hfinite := Double.isFinite_shortestSingle isFinite_boxed
  have hr : boxStore.get? 0 = some (.numberBox (.floating .float)
    (Double.ofRatio false 11 10).toSingle) := rfl
  generalize (Double.ofRatio false 11 10).toSingle = x at hfinite hr
  have hbox : boxStore.encodeWithin [1] (.object 0) = .ok (.number x.shortestSingle) := by
    rw [Store.encodeWithin_object hr]
    exact if_pos hfinite
  have hmap : boxStore.encode (.object 1) = .ok (.object [(units "x", .number x.shortestSingle)]) := by
    unfold Store.encode
    rw [Store.encodeWithin_object (o := .map [(.text (units "x"), .object 0)]) rfl]
    simp only [Store.contents, List.not_mem_nil, if_false, Store.encodeEntries, hbox]
    rfl
  exact ⟨_, Store.encodeText_of_encode hmap (spacesOf_ofInt (Nat.zero_le _))⟩

/-- The box is read as a 32-bit number from the text of the adapter as well, in strict mode. -/
theorem boxStore_reopened :
    boxStore.WellFormed ∧ Native.Built boxStore .float (.object 0) ∧
    ∃ t r s' a' c c', Adapter.toText ⟨1, .strict⟩ boxStore (.ofInt 0) = .ok t ∧
      Store.empty.openDocument t .strict = .ok (r, s') ∧ s'.adapter? r = some a' ∧
      Adapter.read ⟨1, .strict⟩ boxStore .float (units "x") = .ok (some c) ∧
      a'.read s' .float (units "x") = .ok (some c') ∧ c'.unsigned = c.unsigned := by
  have hwell : boxStore.WellFormed := by decide
  have hbuilt : Native.Built boxStore .float (.object 0) := .float isFinite_boxed rfl
  obtain ⟨t, ht⟩ := toText_boxStore
  obtain ⟨r, s', a', c, c', hopen, ha', hread, hread', hsame⟩ :=
    @read_built_reopened boxStore hwell 2 ⟨1, .strict⟩ rfl (units "x") _ rfl _ hbuilt _ _ ht Store.empty
  exact ⟨hwell, hbuilt, t, r, s', a', c, c', ht, hopen, ha', hread, hread', hsame⟩

end TypedReads
