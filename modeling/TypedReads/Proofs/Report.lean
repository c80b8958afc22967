import TypedReads.Proofs.Adapter.Reformat
import TypedReads.Proofs.Number.Single
import TypedReads.Report

/-!
# What a report shows

A read is shown in one piece, as `null` exactly if it is absent (`Shown`), and an inspection shows it as the
line of a single read does (`ShowsRead`). The rows of an inspection have the keys of the adapter in order,
each with its reads at all targets (`Adapter.holds_of_rows`). As JSON they are an object in which every key
has a member, once, but for `hiddenKey`: that one is lost (`inspectionJson_shows_keys`).
-/

namespace TypedReads

section Reads

/-- What a read may be shown as: `null` if it is absent, and otherwise a truth value, a text or a finite
number. -/
inductive Shown : Option Coerced → Json → Prop
  | absent : Shown none .null
  | bool (c : Coerced) (b : Bool) : Shown (some c) (.bool b)
  | text (c : Coerced) (t : Text) : Shown (some c) (.text t)
  | number (c : Coerced) {x : Double} (h : x.isFinite = true) : Shown (some c) (.number x)

/-- The JSON value of a read shows the read. -/
theorem readJson_shown (target : Target) (value : Option Coerced) :
    Shown value (readJson target value) := by
  cases value with
  | none => exact .absent
  | some c =>
    cases c with
    | number x =>
      unfold readJson Coerced.toJson
      dsimp only [Option.elim_some]
      split_ifs with hfinite htarget
      · have hshown := Double.isFinite_shortestSingle hfinite
        exact .number _ ((Double.isFinite_withoutNegativeZero _).trans hshown)
      · exact .number _ ((Double.isFinite_withoutNegativeZero _).trans hfinite)
      · exact .text _ _
    | integer n => exact .text _ _
    | bool b => exact .bool _ _
    | text t => exact .text _ _

namespace Shown

variable {value : Option Coerced} {j : Json} (h : Shown value j)
include h

/-- Only an absent read is shown as null. -/
theorem eq_null_iff : j = .null ↔ value = none := by
  cases h <;> simp

/-- A read is shown without an infinity or NaN. -/
theorem finite : j.Finite := by
  cases h with
  | number c h => exact h
  | _ => trivial

/-- A read is shown in normal form. -/
theorem normal : j.Normal := by
  cases h <;> trivial

/-- What stands in one piece has the same text at any depth. -/
theorem writeAt (indent depth : ℕ) : j.writeAt indent depth = j.write 0 := by
  cases h <;> rfl

end Shown

/-- The line of a single read. -/
theorem readLine_eq (target : Target) (value : Option Coerced) :
    readLine target value = units "\x7b\"type\":\"" ++ units target.name ++
      units "\",\"value\":" ++ (readJson target value).write 0 ++ units "\x7d" := by
  have hname : (units target.name).quote = units "\"" ++ units target.name ++ units "\"" := by
    cases target <;> decide
  have htype : layoutKey 0 (units "type") = units "\"type\":" := by decide
  have hvalue : layoutKey 0 (units "value") = units "\"value\":" := by decide
  -- The marks of the line, as the layout of an object puts them together.
  have hfirst : units "\x7b\"type\":\"" = unit '\x7b' :: units "\"type\":" ++ units "\"" := by decide
  have hbetween : units "\",\"value\":" = units "\"" ++ unit ',' :: units "\"value\":" := by decide
  have hlast : units "\x7d" = [unit '\x7d'] := by decide
  unfold readLine Json.write
  simp only [Json.writeAt, Json.writeMembers, layoutParts]
  rw [htype, hvalue, hname, (readJson_shown target value).writeAt, hfirst, hbetween, hlast]
  simp [List.intercalate]

end Reads

section Rows

/-- A step with a result goes on from the result of the one before. -/
theorem exists_ok_of_bind {ε α β : Type} {x : Except ε α} {f : α → Except ε β} {b : β}
    (h : x >>= f = .ok b) : ∃ a, x = .ok a ∧ f a = .ok b := by
  cases x with
  | error e => cases h
  | ok a => exact ⟨a, rfl, h⟩

/-- A row that holds what its key reads as at all targets in order. -/
def InspectionRow.Holds (row : InspectionRow) (a : Adapter) (s : Store) : Prop :=
  List.Forall₂ (fun target read => read.1 = target ∧ a.read s target row.key = .ok read.2)
    Target.all row.reads

variable {a : Adapter} {s : Store}

/-- The reads of a key begin with the one for the first target. -/
theorem Adapter.readAll_cons (key : Text) (target : Target) (targets : List Target) :
    a.readAll s (a.get? s key) (target :: targets) =
      a.read s target key >>= fun value =>
        a.readAll s (a.get? s key) targets >>= fun rest => .ok ((target, value) :: rest) := by
  unfold Adapter.read
  cases hget : a.get? s key <;> rfl

/-- The reads of a key are its single reads. -/
theorem Adapter.forall₂_readAll {key : Text} {targets : List Target}
    {reads : List (Target × Option Coerced)}
    (h : a.readAll s (a.get? s key) targets = .ok reads) :
    List.Forall₂ (fun target read => read.1 = target ∧ a.read s target key = .ok read.2) targets
      reads := by
  induction targets generalizing reads with
  | nil =>
    cases h
    exact .nil
  | cons target targets ih =>
    rw [readAll_cons] at h
    obtain ⟨value, hvalue, hrest⟩ := exists_ok_of_bind h
    obtain ⟨rest, hreads, hcons⟩ := exists_ok_of_bind hrest
    cases hcons
    exact .cons ⟨rfl, hvalue⟩ (ih hreads)

/-- The row of a key. -/
theorem Adapter.holds_of_inspectKey {key : Text} {row : InspectionRow}
    (h : a.inspectKey s (.text key) = .ok row) : row.key = key ∧ row.Holds a s := by
  obtain ⟨reads, hreads, hrow⟩ := exists_ok_of_bind h
  cases hrow
  exact ⟨rfl, Adapter.forall₂_readAll hreads⟩

/-- The rows of some keys. -/
theorem Adapter.holds_of_rows {keys : List Text} {rows : List InspectionRow}
    (h : Adapter.inspect.rows a s (keys.map Value.text) = .ok rows) :
    rows.map InspectionRow.key = keys ∧ ∀ row ∈ rows, row.Holds a s := by
  induction keys generalizing rows with
  | nil =>
    cases h
    exact ⟨rfl, fun row hrow => absurd hrow List.not_mem_nil⟩
  | cons key keys ih =>
    obtain ⟨row, hrow, hrest⟩ := exists_ok_of_bind h
    obtain ⟨rest, hrows, hcons⟩ := exists_ok_of_bind hrest
    cases hcons
    obtain ⟨hkey, hholds⟩ := holds_of_inspectKey hrow
    obtain ⟨hkeys, hall⟩ := ih hrows
    exact ⟨congrArg₂ List.cons hkey hkeys, List.forall_mem_cons.mpr ⟨hholds, hall⟩⟩

end Rows

section Members

variable {a : Adapter} {s : Store}

/-- A JSON value is what a key reads as at a target: it is `null` exactly if the read is absent, and at
any depth it has the text that the line of the single read has for its value. -/
def ShowsRead (a : Adapter) (s : Store) (key : Text) (target : Target) (j : Json) : Prop :=
  ∃ value shown, a.read s target key = .ok value ∧ (j = .null ↔ value = none) ∧
    (∀ indent depth, j.writeAt indent depth = shown) ∧
    readLine target value = units "\x7b\"type\":\"" ++ units target.name ++
      units "\",\"value\":" ++ shown ++ units "\x7d"

/-- Members that are what a key reads as at all targets in order, each under the name of its target. -/
def ShowsReads (a : Adapter) (s : Store) (key : Text) (reads : List (Text × Json)) : Prop :=
  List.Forall₂ (fun target read => read.1 = units target.name ∧ ShowsRead a s key target read.2)
    Target.all reads

/-- The member that a row is shown as. -/
def InspectionRow.member (row : InspectionRow) : Text × Json :=
  (row.key, .object (row.reads.map fun read => (units read.1.name, readJson read.1 read.2)))

/-- The JSON value of a read of a key shows that read. -/
theorem showsRead_readJson {key : Text} {target : Target} {value : Option Coerced}
    (h : a.read s target key = .ok value) : ShowsRead a s key target (readJson target value) :=
  have hshown := readJson_shown target value
  ⟨value, _, h, hshown.eq_null_iff, hshown.writeAt, readLine_eq target value⟩

/-- A row that holds its reads shows them. -/
theorem InspectionRow.Holds.showsReads {row : InspectionRow} (h : row.Holds a s) :
    ∃ reads, row.member.2 = .object reads ∧ ShowsReads a s row.key reads := by
  refine ⟨_, rfl, ?_⟩
  unfold ShowsReads
  rw [List.forall₂_map_right_iff]
  refine h.imp fun target read hread => ?_
  obtain ⟨rfl, hread⟩ := hread
  exact ⟨rfl, showsRead_readJson hread⟩

/-- A row that holds its reads is shown as an object that lists each target once. -/
theorem InspectionRow.Holds.normal {row : InspectionRow} (h : row.Holds a s) :
    row.member.2.Normal := by
  obtain ⟨reads, hreads, hshows⟩ := h.showsReads
  have hkeys : Entries.keys reads = Target.all.map fun target => units target.name :=
    Entries.keys_of_forall₂ hshows
  have hnames : (Target.all.map fun target => units target.name).Nodup := by decide
  have hnamed : ∀ name ∈ Target.all.map fun target => units target.name,
      indexKey? name = none := by decide
  rw [hreads]
  refine ⟨hkeys ▸ hnames, Entries.listing_of_named (hkeys ▸ hnamed), ?_⟩
  cases hreads
  refine Json.normalMembers_iff.mpr fun e he => ?_
  obtain ⟨read, -, rfl⟩ := List.mem_map.mp he
  exact (readJson_shown _ _).normal

/-- The member of a row has finite numbers only. -/
theorem InspectionRow.member_finite (row : InspectionRow) : row.member.2.Finite := by
  refine Json.numbersMembers_iff.mpr fun e he => ?_
  obtain ⟨read, -, rfl⟩ := List.mem_map.mp he
  exact (readJson_shown _ _).finite

/-- The members of an inspection, in the order of its rows. -/
def shownMembers (rows : List InspectionRow) : Entries Text Json :=
  (rows.filter fun row => row.key ≠ hiddenKey).map InspectionRow.member

/-- The keys that are shown are those of the rows but for the hidden one. -/
theorem keys_shownMembers (rows : List InspectionRow) :
    (shownMembers rows).keys = (rows.map InspectionRow.key).filter (· ≠ hiddenKey) := by
  unfold shownMembers Entries.keys
  rw [List.map_map, List.filter_map]
  rfl

/-- What is shown is the member of a row. -/
theorem mem_shownMembers {rows : List InspectionRow} {e : Text × Json} (h : e ∈ shownMembers rows) :
    ∃ row ∈ rows, row.member = e := by
  obtain ⟨row, hrow, rfl⟩ := List.mem_map.mp h
  exact ⟨row, (List.mem_filter.mp hrow).1, rfl⟩

/-- An inspection whose rows have keys of their own is written as an object of its members, and is read
as such. -/
theorem inspectionJson_eq {rows : List InspectionRow} (hnodup : (rows.map InspectionRow.key).Nodup)
    (hholds : ∀ row ∈ rows, row.Holds a s) :
    ∃ members, inspectionJson rows = (Json.object members).write 2 ∧
      Document.entries (inspectionJson rows) = .ok (Json.rereadMembers members) ∧
      members.Perm (shownMembers rows) := by
  have hjson : inspectionJson rows = (Json.record (shownMembers rows)).write 2 := rfl
  have hnormal : (Json.record (shownMembers rows)).Normal := by
    refine Json.record_normal (Json.normalMembers_iff.mpr fun e he => ?_)
    obtain ⟨row, hrow, rfl⟩ := mem_shownMembers he
    exact (hholds row hrow).normal
  have hfinite : (Json.record (shownMembers rows)).Finite := by
    refine Json.numbers_record (Json.numbersMembers_iff.mpr fun e he => ?_)
    obtain ⟨row, -, rfl⟩ := mem_shownMembers he
    exact row.member_finite
  refine ⟨_, hjson, ?_, ?_⟩
  · rw [hjson]
    refine (Document.entries_write hfinite 2).trans ?_
    rw [Json.normalizeMembers_of_normal (Json.rereadMembers_normal hnormal.2.2)]
  · rw [Entries.ofPairs_of_nodup (keys_shownMembers rows ▸ hnodup.filter _)]
    exact Entries.listing_perm _

end Members

/-- An inspection of an opened document as JSON is the text of an object, and is read as one with the same
members. Their keys are those of the adapter, each once, without `hiddenKey`, which is lost if the document
has it; and the member of a key is an object with what the key reads as at each target, in order. -/
theorem inspectionJson_shows_keys {t : Text} {mode : Narrowing} {s₀ s : Store} {r : Ref} {a : Adapter}
    {rows : List InspectionRow} (hopen : s₀.openDocument t mode = .ok (r, s))
    (ha : s.adapter? r = some a) (hrows : a.inspect s = .ok rows) :
    ∃ members, inspectionJson rows = (Json.object members).write 2 ∧
      Document.entries (inspectionJson rows) = .ok (Json.rereadMembers members) ∧
      (Entries.keys members).Nodup ∧
      ((Entries.keys members).map Value.text).Perm ((a.keys s).filter (· ≠ .text hiddenKey)) ∧
      ∀ member ∈ members, ∃ reads, member.2 = .object reads ∧ ShowsReads a s member.1 reads := by
  obtain ⟨es, -, hopened, hnodup, -, -⟩ := Store.opened_of_openDocument hopen ha
  have hrows' : Adapter.inspect.rows a s (es.keys.map Value.text) = .ok rows := hopened.keys ▸ hrows
  obtain ⟨hkeys, hholds⟩ := Adapter.holds_of_rows hrows'
  obtain ⟨members, hwrite, hread, hperm⟩ := inspectionJson_eq (hkeys ▸ hnodup) hholds
  have hshown : (Entries.keys members).Perm (es.keys.filter (· ≠ hiddenKey)) := by
    rw [← hkeys, ← keys_shownMembers]
    exact hperm.map Prod.fst
  have hfilter : (a.keys s).filter (· ≠ .text hiddenKey) =
      (es.keys.filter (· ≠ hiddenKey)).map Value.text := by
    rw [hopened.keys, List.filter_map]
    refine congrArg _ (List.filter_congr fun key _ => ?_)
    simp
  refine ⟨members, hwrite, hread, hshown.nodup_iff.mpr (hnodup.filter _), ?_, fun member hmem => ?_⟩
  · rw [hfilter]
    exact hshown.map Value.text
  · obtain ⟨row, hrow, rfl⟩ := mem_shownMembers (hperm.mem_iff.mp hmem)
    exact (hholds row hrow).showsReads

/-- A document with the key that is lost and another one. -/
def hiddenDocument : Text := units "\x7b\"__proto__\":true,\"a\":false\x7d"

/-- An inspection of the document has rows for both keys and shows the other one alone. -/
theorem hiddenDocument_shown : ∃ r s a rows members,
    Store.empty.openDocument hiddenDocument .truncate = .ok (r, s) ∧ s.adapter? r = some a ∧
      a.keys s = [.text hiddenKey, .text (units "a")] ∧ a.inspect s = .ok rows ∧
      rows.map InspectionRow.key = [hiddenKey, units "a"] ∧
      inspectionJson rows = (Json.object members).write 2 ∧
      (Entries.keys members).map Value.text = [.text (units "a")] := by
  let es : Entries Text Json := [(hiddenKey, .bool true), (units "a", .bool false)]
  -- The document is opened as the adapter of its two members.
  have hentries : Document.entries hiddenDocument = .ok es := by
    have htext : hiddenDocument = (Json.object es).write 0 := by decide
    have hfinite : Json.FiniteMembers es := ⟨trivial, trivial, trivial⟩
    rw [htext]
    exact Document.entries_write hfinite 0
  obtain ⟨r, s, a, hopen, ha, -, hopened, -⟩ := Store.empty.openDocument_ok hentries .truncate
  have hkeys : a.keys s = [.text hiddenKey, .text (units "a")] := hopened.keys
  -- The row of a key whose value is a truth value.
  have hrow : ∀ key b, es.get? key = some (.bool b) →
      ∃ row, a.inspectKey s (.text key) = .ok row ∧ row.key = key := by
    intro key b hkey
    obtain ⟨v, hv, hrep⟩ := Adapter.get?_opened hopened hkey
    cases hrep
    have hlookup : a.lookup s (.text key) = some (.bool b) := Store.get?_of_entry hv rfl
    unfold Adapter.inspectKey
    rw [hlookup]
    exact ⟨_, rfl, rfl⟩
  obtain ⟨row, hfirst, hkey⟩ := hrow hiddenKey true rfl
  obtain ⟨row', hsecond, hkey'⟩ := hrow (units "a") false rfl
  -- Both keys have a row, and the first is left out of the JSON text.
  have hrows : a.inspect s = .ok [row, row'] := by
    unfold Adapter.inspect
    rw [hkeys]
    simp only [Adapter.inspect.rows, hfirst, hsecond]
    rfl
  obtain ⟨members, hwrite, -, -, hshown, -⟩ := inspectionJson_shows_keys hopen ha hrows
  have hfilter : (a.keys s).filter (· ≠ .text hiddenKey) = [.text (units "a")] := by
    rw [hkeys]
    rfl
  rw [hfilter] at hshown
  have hnames : [row, row'].map InspectionRow.key = [hiddenKey, units "a"] := by
    rw [← hkey, ← hkey']
    rfl
  exact ⟨r, s, a, _, members, hopen, ha, hkeys, hrows, hnames, hwrite,
    List.perm_singleton.mp hshown⟩

end TypedReads
