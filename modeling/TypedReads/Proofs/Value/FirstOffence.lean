import Mathlib.Tactic.FinCases
import TypedReads.Command.Error
import TypedReads.Proofs.Number.Single
import TypedReads.Proofs.Value.Obstacles
import TypedReads.Proofs.Value.Texts

/-!
# The first offence

`Store.Offends` says of a stop of a walk, without the encoder, that JSON cannot hold what is met
there, and what is said about it. Encoding a value fails exactly if the walk meets such a stop, and
it reports the first (`error_names_first_offence`).

A stop offends exactly where encoding has a cause to end, if classes have names: the message about
the cause is the one about the offence (`Offends.causeAt`, `exists_offends`). So the first offence
is the first obstacle (`firstOffence_iff`), which is what an error reports.
-/

namespace TypedReads

namespace Store

/-- The name of the class of an object that is neither plain nor a map. -/
inductive ClassName (s : Store) : Object → Text → Prop
  | date (date : Date) : ClassName s (.date date) (units "Date")
  | foreign (className : Text) (manner : Manner) :
      ClassName s (.foreign className manner) className
  /-- The constructor is the one of the record inherited from. -/
  | inherited {members : Entries Text Value} (h : members.get? (units "constructor") = none) :
      ClassName s (.derived members) (units "Object")
  /-- The constructor is a member of the object itself. -/
  | own {members : Entries Text Value} {c : Value} {name : Text}
      (h : members.get? (units "constructor") = some c)
      (hname : s.nameOf? c = some (.text name)) : ClassName s (.derived members) name

/-- JSON cannot hold what is met at a stop, and this is what is said about it. -/
inductive Offends (s : Store) (stop : Stop) : Text → Prop
  | undefined (h : stop.item = .value .undefined) :
      Offends s stop (units "undefined" ++ units " is not representable in JSON")
  | symbol {mark : ℕ} {description : Text} (h : stop.item = .value (.symbol mark description)) :
      Offends s stop (units "symbol" ++ units " is not representable in JSON")
  | function {f : Function} (h : stop.item = .value (.function f)) :
      Offends s stop (units "function" ++ units " is not representable in JSON")
  | number {x : Double} (h : stop.item = .value (.number x)) (hx : x.isFinite = false) :
      Offends s stop (x.toText ++ units " is not representable in JSON")
  | box {r : Ref} {kind : NumericKind} {x : Double} (h : stop.item = .value (.object r))
      (hr : s.get? r = some (.numberBox kind x)) (hx : x.isFinite = false) :
      Offends s stop (x.toText ++ units " is not representable in JSON")
  /-- There is no object at the place. -/
  | dangling {r : Ref} (h : stop.item = .value (.object r)) (hr : s.get? r = none) :
      Offends s stop (units "undefined" ++ units " is not representable in JSON")
  | instanceOf {r : Ref} {o : Object} {name : Text} (h : stop.item = .value (.object r))
      (hr : s.get? r = some o) (hname : s.ClassName o name) :
      Offends s stop (units "instance of " ++ name ++ units " is not representable in JSON")
  /-- The object is one of those around it. -/
  | cycle {r : Ref} (h : stop.item = .value (.object r)) (hr : r ∈ stop.around) :
      Offends s stop (units "cyclic reference")
  | key {r : Ref} {k : Value} (h : stop.item = .key r k) (hk : ∀ t, k ≠ .text t) :
      Offends s stop (units "map key of type " ++ units k.typeName ++ units " is not a string")

/-- Every derived object within a value has a constructor with a name. -/
def Named (s : Store) (root : Value) : Prop :=
  ∀ r members, s.Within root (.object r) → s.get? r = some (.derived members) →
    ∃ name, s.ClassName (.derived members) name

/-- The first stop of a walk with an offence is at the end of a way, and this is what is said about
it. -/
def FirstOffence (s : Store) (root : Value) (path : Path) (message : Text) : Prop :=
  ∃ before stop after, s.stops root = before ++ stop :: after ∧
    (∀ earlier ∈ before, ∀ m, ¬ s.Offends earlier m) ∧ stop.path = path ∧ s.Offends stop message

variable {s : Store}

section Offences

/-- The objects that have a class name are refused for it. -/
theorem ClassName.contents_eq {o : Object} {name : Text} (h : s.ClassName o name) :
    s.contents o = .none (.foreign (.text name)) := by
  cases h with
  | date date => rfl
  | foreign className manner => rfl
  | inherited h => simp [contents, derivedCause, h]
  | own h hname => simp [contents, derivedCause, h, hname]

/-- What is refused for its class has a class name, if derived objects have. -/
theorem exists_className {o : Object} {cause : Unencodable} (ho : s.contents o = .none cause)
    (hnamed : ∀ members, o = .derived members → ∃ name, s.ClassName o name) :
    ∃ name, s.ClassName o name := by
  cases o with
  | date date => exact ⟨_, .date date⟩
  | foreign className manner => exact ⟨_, .foreign className manner⟩
  | derived members => exact hnamed members rfl
  | numberBox kind x => rcases kind with k | _ | _ <;> cases ho
  | _ => cases ho

/-- Of the values without parts, the numbers that are not finite are refused. -/
theorem leafCause_number (x : Double) :
    leafCause (.number x) = if x.isFinite then none else some (.number x) := by
  cases x <;> rfl

/-- A box is refused for its number. -/
theorem leafCause_box (kind : NumericKind) (x : Double) :
    ∃ y, s.contents (.numberBox kind x) = .leaf (.number y) ∧
      leafCause (.number y) = leafCause (.number x) := by
  rcases kind with k | _ | _
  · exact ⟨x, rfl, rfl⟩
  · refine ⟨x.shortestSingle, rfl, ?_⟩
    cases x with
    | finite negative rank =>
      rw [leafCause_number, if_pos (Double.isFinite_shortestSingle rfl)]
      rfl
    | nan => rfl
    | infinite negative => cases negative <;> rfl
  · exact ⟨x, rfl, rfl⟩

section Stops

variable {root : Value} {stop : Stop} (hstop : stop ∈ s.stops root)

include hstop

/-- Only containers are around a stop. -/
theorem container_of_mem_around {r : Ref} (hr : r ∈ stop.around) : s.Container r := by
  obtain ⟨w, htrail, -⟩ := trail_of_mem_stopsWithin .root hstop
  exact htrail.containers r hr

/-- A derived object that a walk meets has a class name, if those within the root have. -/
theorem Named.className (hnamed : s.Named root) {r : Ref} (hitem : stop.item = .value (.object r))
    {o : Object} (hr : s.get? r = some o) (members : Entries Text Value)
    (ho : o = .derived members) : ∃ name, s.ClassName o name := by
  obtain ⟨w, htrail, hw⟩ := trail_of_mem_stopsWithin .root hstop
  rw [hitem] at hw
  cases hw
  subst ho
  exact hnamed r members htrail.within hr

/-- Encoding ends at a stop with an offence, and the message is about the offence. -/
theorem Offends.causeAt {m : Text} (h : s.Offends stop m) :
    ∃ cause, s.causeAt stop = some cause ∧ cause.message (s.objectText [] []) = .ok m := by
  cases h with
  | undefined h | symbol h | function h =>
    unfold Store.causeAt
    rw [h]
    exact ⟨_, rfl, rfl⟩
  | number h hx =>
    unfold Store.causeAt
    rw [h]
    exact ⟨_, (leafCause_number _).trans (if_neg (ne_true_of_eq_false hx)), rfl⟩
  | @box r kind x h hr hx =>
    obtain ⟨y, ho, hcause⟩ := s.leafCause_box kind x
    rw [causeAt_of_leaf h hr ho, hcause, leafCause_number, if_neg (ne_true_of_eq_false hx)]
    exact ⟨_, rfl, rfl⟩
  | dangling h hr =>
    rw [causeAt_of_dangling h hr]
    exact ⟨_, rfl, rfl⟩
  | instanceOf h hr hname =>
    rw [causeAt_of_none h hr hname.contents_eq]
    exact ⟨_, rfl, rfl⟩
  | cycle h hr =>
    rw [causeAt_of_container h (container_of_mem_around hstop hr), if_pos hr]
    exact ⟨_, rfl, rfl⟩
  | @key r k h hk =>
    unfold Store.causeAt
    rw [h]
    cases k with
    | text t => exact absurd rfl (hk t)
    | _ => exact ⟨_, rfl, rfl⟩

/-- An object at which encoding ends is an offence, which is what the message is about. -/
theorem exists_offends_of_object (hnamed : s.Named root) {cause : Unencodable} {r : Ref}
    (hitem : stop.item = .value (.object r)) (h : s.causeAt stop = some cause) :
    ∃ m, cause.message (s.objectText [] []) = .ok m ∧ s.Offends stop m := by
  cases hr : s.get? r with
  | none =>
    rw [causeAt_of_dangling hitem hr] at h
    cases h
    exact ⟨_, rfl, .dangling hitem hr⟩
  | some o =>
    cases ho : s.contents o with
    | leaf v =>
      -- Of the boxes, only one of a number that is not finite is refused.
      rw [causeAt_of_leaf hitem hr ho] at h
      cases o with
      | numberBox kind x =>
        obtain ⟨y, hy, hcause⟩ := s.leafCause_box kind x
        cases ho.symm.trans hy
        rw [hcause, leafCause_number] at h
        split_ifs at h with hx
        cases h
        exact ⟨_, rfl, .box hitem hr (Bool.eq_false_iff.mpr hx)⟩
      | charBox t =>
        cases ho
        cases h
      | _ => cases ho
    | none cause' =>
      -- The class has a name here, which is what the message says.
      obtain ⟨name, hname⟩ := exists_className ho (hnamed.className hstop hitem hr)
      rw [causeAt_of_none hitem hr hname.contents_eq] at h
      cases h
      exact ⟨_, rfl, .instanceOf hitem hr hname⟩
    -- A container is refused only where it is around itself.
    | items vs =>
      rw [causeAt_of_container hitem ⟨o, hr, .inl ⟨vs, ho⟩⟩] at h
      split_ifs at h with hmem
      cases h
      exact ⟨_, rfl, .cycle hitem hmem⟩
    | entries es =>
      rw [causeAt_of_container hitem ⟨o, hr, .inr ⟨es, ho⟩⟩] at h
      split_ifs at h with hmem
      cases h
      exact ⟨_, rfl, .cycle hitem hmem⟩

/-- A stop at which encoding ends has an offence, which is what the message is about. -/
theorem exists_offends (hnamed : s.Named root) {cause : Unencodable}
    (h : s.causeAt stop = some cause) :
    ∃ m, cause.message (s.objectText [] []) = .ok m ∧ s.Offends stop m := by
  by_cases hobject : ∃ r, stop.item = .value (.object r)
  · obtain ⟨r, hitem⟩ := hobject
    exact exists_offends_of_object hstop hnamed hitem h
  -- What is left is the key of an entry or a primitive.
  unfold causeAt at h
  cases hitem : stop.item with
  | key r k =>
    rw [hitem] at h
    cases k with
    | text t => cases h
    | _ =>
      cases h
      exact ⟨_, rfl, .key hitem nofun⟩
  | value v =>
    rw [hitem] at h
    cases v with
    | object r => exact absurd ⟨r, hitem⟩ hobject
    | number x =>
      dsimp only at h
      rw [leafCause_number] at h
      split_ifs at h with hx
      cases h
      exact ⟨_, rfl, .number hitem (Bool.eq_false_iff.mpr hx)⟩
    | undefined =>
      cases h
      exact ⟨_, rfl, .undefined hitem⟩
    | symbol mark description =>
      cases h
      exact ⟨_, rfl, .symbol hitem⟩
    | function mark =>
      cases h
      exact ⟨_, rfl, .function hitem⟩
    | _ => cases h

/-- Encoding goes on at a stop exactly if nothing is wrong with what is met there. -/
theorem obstacleAt_eq_none_iff (hnamed : s.Named root) :
    s.obstacleAt stop = none ↔ ∀ m, ¬ s.Offends stop m := by
  rw [obstacleAt, Option.map_eq_none_iff]
  constructor
  · intro hnone m hoffends
    obtain ⟨cause, hcause, -⟩ := hoffends.causeAt hstop
    rw [hnone] at hcause
    cases hcause
  · intro hnone
    cases hcause : s.causeAt stop with
    | none => rfl
    | some cause =>
      obtain ⟨m, -, hoffends⟩ := exists_offends hstop hnamed hcause
      exact absurd hoffends (hnone m)

end Stops

end Offences

section Errors

variable {root : Value} {e : EncodeError}

/-- The first offence is the first obstacle, with what is said about it. -/
theorem firstOffence_iff (hnamed : s.Named root) {path : Path} {m : Text} :
    s.FirstOffence root path m ↔
      ∃ cause, (s.stops root).findSome? s.obstacleAt = some ⟨path, cause⟩ ∧
        cause.message (s.objectText [] []) = .ok m := by
  simp only [List.findSome?_eq_some_iff]
  constructor
  · rintro ⟨before, stop, after, hstops, hbefore, rfl, hoffends⟩
    have hstop : stop ∈ s.stops root := by simp [hstops]
    obtain ⟨cause, hcause, hmessage⟩ := hoffends.causeAt hstop
    refine ⟨cause, ⟨before, stop, after, hstops, ?_, fun earlier hmem => ?_⟩, hmessage⟩
    · rw [obstacleAt, hcause]
      rfl
    · exact (obstacleAt_eq_none_iff (by simp [hstops, hmem]) hnamed).mpr (hbefore earlier hmem)
  · rintro ⟨cause, ⟨before, stop, after, hstops, hstop, hbefore⟩, hmessage⟩
    obtain ⟨cause', hcause, heq⟩ := Option.map_eq_some_iff.mp hstop
    cases heq
    obtain ⟨m', hmessage', hoffends⟩ := exists_offends (by simp [hstops]) hnamed hcause
    cases hmessage.symm.trans hmessage'
    refine ⟨before, stop, after, hstops, fun earlier hmem => ?_, rfl, hoffends⟩
    exact (obstacleAt_eq_none_iff (by simp [hstops, hmem]) hnamed).mp (hbefore earlier hmem)

/-- A value is refused for its first offence. -/
theorem toJson_refused_iff_firstOffence (hnamed : s.Named root) :
    s.toJson root = .error (.refused e) ↔ s.FirstOffence root e.path e.message := by
  rw [toJson_refused_iff, firstOffence_iff hnamed]
  simp only [encode_error_iff_findSome?]

/-- A value has a JSON form and no offence, or it is refused for its first offence. -/
theorem toJson_cases (hnamed : s.Named root) :
    ((∃ j, s.toJson root = .ok j) ∧ ∀ stop ∈ s.stops root, ∀ m, ¬ s.Offends stop m) ∨
      ∃ e, s.toJson root = .error (.refused e) ∧ s.FirstOffence root e.path e.message := by
  cases hfound : (s.stops root).findSome? s.obstacleAt with
  | none =>
    refine .inl ⟨?_, fun stop hstop => ?_⟩
    · cases hencode : s.encode root with
      | ok j => exact ⟨j, by rw [toJson, hencode]⟩
      | error obstacle =>
        rw [encode_error_iff_findSome?.mp hencode] at hfound
        cases hfound
    · exact (obstacleAt_eq_none_iff hstop hnamed).mp
        (List.findSome?_eq_none_iff.mp hfound stop hstop)
  | some obstacle =>
    obtain ⟨stop, hstop, hobstacle⟩ := List.exists_of_findSome?_eq_some hfound
    obtain ⟨cause, hcause, rfl⟩ := Option.map_eq_some_iff.mp hobstacle
    obtain ⟨m, hmessage, -⟩ := exists_offends hstop hnamed hcause
    have he := toJson_refused_iff (e := ⟨stop.path, m⟩).mpr
      ⟨cause, encode_error_iff_findSome?.mpr hfound, hmessage⟩
    exact .inr ⟨_, he, (toJson_refused_iff_firstOffence hnamed).mp he⟩

/-- A value is refused exactly if the walk meets an offence. -/
theorem exists_refused_iff (hnamed : s.Named root) :
    (∃ e, s.toJson root = .error (.refused e)) ↔ ∃ stop ∈ s.stops root, ∃ m, s.Offends stop m := by
  constructor
  · rintro ⟨e, he⟩
    obtain ⟨before, stop, after, hstops, -, -, hoffends⟩ :=
      (toJson_refused_iff_firstOffence hnamed).mp he
    exact ⟨stop, by simp [hstops], _, hoffends⟩
  · rintro ⟨stop, hstop, m, hoffends⟩
    obtain ⟨-, hnone⟩ | ⟨e, he, -⟩ := toJson_cases hnamed
    · exact absurd hoffends (hnone stop hstop m)
    · exact ⟨e, he⟩

/-- Where classes have names, every refusal can be explained. -/
theorem normalize_ne_fault (hnamed : s.Named root) (f : Fault) :
    s.normalize root ≠ .error (.fault f) := by
  unfold normalize
  obtain ⟨⟨j, hj⟩, -⟩ | ⟨e, he, -⟩ := toJson_cases hnamed
  · rw [hj]
    nofun
  · rw [he]
    nofun

end Errors

end Store

/-- The text of a path with one more step. -/
def childText (t : Text) : Step → Text
  | .key k =>
    if Text.isIdentifier k then t ++ units "." ++ k
    else t ++ units "[" ++ Text.quote k ++ units "]"
  | .index i => t ++ units "[" ++ Text.ofNat i ++ units "]"

/-- The text of a path grows on the way down. -/
theorem Path.toText_eq_foldl (path : Path) : path.toText = path.foldl childText (units "$") := by
  have hgrow : ∀ t, t ++ path.flatMap Step.toText = path.foldl childText t := by
    induction path with
    | nil => exact List.append_nil
    | cons step path ih =>
      intro t
      have hstep : childText t step = t ++ step.toText := by
        cases step with
        | key k =>
          dsimp only [childText, Step.toText]
          split_ifs <;> simp [units, unitsOf]
        | index i => simp [childText, Step.toText, units, unitsOf]
      rw [List.foldl_cons, hstep, ← ih, List.flatMap_cons, List.append_assoc]
  have hroot : units "$" = [unit '$'] := by decide
  rw [hroot, ← hgrow]
  rfl

/-- Encoding a value fails exactly if its depth-first walk meets something that JSON cannot hold.
The error is about the first that is met: nothing is wrong at an earlier stop, the message says what
is wrong, and the path is the text of the way there, which leads from the root to what is met. The
walk takes every way that enters no object twice. -/
theorem error_names_first_offence {s : Store} {root : Value} (hs : s.WellFormed)
    (hnamed : s.Named root) :
    ((∃ e, s.normalize root = .error (.refused e)) ↔
      ∃ stop ∈ s.stops root, ∃ m, s.Offends stop m) ∧
    (∀ width, (∃ e, s.encodeText root width = .error (.refused e)) ↔
      ∃ stop ∈ s.stops root, ∃ m, s.Offends stop m) ∧
    (∀ e, s.normalize root = .error (.refused e) ↔ s.FirstOffence root e.path e.message) ∧
    (∀ width e, s.encodeText root width = .error (.refused e) ↔
      s.FirstOffence root e.path e.message) ∧
    (∀ f, s.normalize root ≠ .error (.fault f)) ∧
    (∀ e, (AppError.encode e).diagnostic =
      .encode (e.path.foldl childText (units "$")) e.message) ∧
    (∀ stop ∈ s.stops root, s.Located root stop) ∧
    (∀ path around v, s.Trail root path around v → around.Nodup →
      ⟨path, around, .value v⟩ ∈ s.stops root) := by
  -- Both encoders are refused where encoding is, whose error is the first obstacle of the walk.
  refine ⟨?_, fun width => ?_, fun e => ?_, fun width e => ?_, Store.normalize_ne_fault hnamed,
    fun e => ?_, fun stop => Store.located_of_mem_stops hs,
    fun path around v => Store.Trail.mem_stops⟩
  · simp only [Store.normalize_refused_iff, Store.exists_refused_iff hnamed]
  · simp only [Store.encodeText_refused_iff, Store.exists_refused_iff hnamed]
  · rw [Store.normalize_refused_iff, Store.toJson_refused_iff_firstOffence hnamed]
  · rw [Store.encodeText_refused_iff, Store.toJson_refused_iff_firstOffence hnamed]
  · rw [AppError.diagnostic, Path.toText_eq_foldl]

/-- A record with a number, an object of a class named `Point` and a map with a key that is no
text. -/
def survey : Store :=
  ⟨#[.record false [(units "id", .integer 1), (units "at", .object 1), (units "by", .object 3)],
    .derived [(units "constructor", .object 2)],
    .record false [(units "name", .text (units "Point"))],
    .map [(.integer 5, .null)]], 0⟩

/-- The object is met first, so the key is not reported. -/
theorem survey_refused :
    survey.WellFormed ∧ survey.Named (.object 0) ∧
    survey.normalize (.object 0) =
      .error (.refused
        ⟨[.key (units "at")], units "instance of Point is not representable in JSON"⟩) := by
  have hwell : survey.WellFormed := by decide
  -- The one derived object within is of a class with a name.
  have hpoint : survey.ClassName (.derived [(units "constructor", .object 2)]) (units "Point") :=
    .own (c := .object 2) (by decide) (by decide)
  have hnamed : survey.Named (.object 0) := by
    have hall : ∀ r o, survey.get? r = some o → ∀ members, o = .derived members →
        ∃ name, survey.ClassName o name := by
      refine Store.forall_objects fun i => ?_
      fin_cases i <;> intro members ho <;> cases ho
      exact ⟨_, hpoint⟩
    exact fun r members _ hr => hall r _ hr members rfl
  -- The walk stops at the record, the number, the object, the map and the key of the map.
  have hstops : survey.stops (.object 0) =
      [⟨[], [], .value (.object 0)⟩, ⟨[.key (units "id")], [0], .value (.integer 1)⟩] ++
        ⟨[.key (units "at")], [0], .value (.object 1)⟩ ::
          [⟨[.key (units "by")], [0], .value (.object 3)⟩,
            ⟨[.key (units "by")], [0], .key 3 (.integer 5)⟩] := by
    have hroot : survey.children survey.objects[0] =
        [.part (.key (units "id")) (.integer 1), .part (.key (units "at")) (.object 1),
          .part (.key (units "by")) (.object 3)] := by
      simp +decide [survey, Store.children, Entries.listing]
    rw [Store.stops, Store.stopsWithin_object (o := survey.objects[0]) rfl (by decide), hroot]
    simp only [List.flatMap_cons, List.flatMap_nil, Store.childStops]
    have hnumber : ∀ r o, Value.integer 1 = .object r → survey.get? r = some o → r ∈ [0] := by
      intro r o hr
      cases hr
    rw [Store.stopsWithin_of_not_entered hnumber,
      Store.stopsWithin_object (o := survey.objects[1]) rfl (by decide),
      Store.stopsWithin_object (o := survey.objects[3]) rfl (by decide)]
    rfl
  refine ⟨hwell, hnamed, ?_⟩
  -- Nothing is wrong at the two stops before the object.
  obtain ⟨-, -, herror, -⟩ := error_names_first_offence hwell hnamed
  refine (herror _).mpr ⟨_, _, _, hstops, fun earlier hmem => ?_, rfl, .instanceOf rfl rfl hpoint⟩
  have hearlier : earlier ∈ survey.stops (.object 0) := by
    rw [hstops]
    exact List.mem_append_left _ hmem
  rw [← Store.obstacleAt_eq_none_iff hearlier hnamed]
  obtain rfl | rfl := List.mem_pair.mp hmem <;> rfl

end TypedReads
