import TypedReads.Proofs.Json.Scanning

/-!
# Reading accepts the grammar

A text of the grammar is read as the value it spells (`DocumentText.read`). `ReadAs` says what this
means for a value inside a document: wherever a value may stand, its text leads from there to the
state behind that value. Every constructor of the grammar preserves it, so it holds of every text by
induction on how the text is built.
-/

namespace TypedReads

section Tokens

/-- Blanks are no tokens. -/
theorem Blank.tokens {blank : Text} (h : Blank blank) (t : Text) :
    Text.tokens (blank ++ t) = Text.tokens t := by
  induction blank with
  | nil => rfl
  | cons u blank ih =>
    rw [List.cons_append, Text.tokens.eq_def]
    dsimp only
    rw [if_pos (h u (by simp)), ih fun v hv => h v (List.mem_cons_of_mem u hv)]

/-- The first token of a text that starts with no blank. -/
theorem tokens_cons {u : CodeUnit} {t tail : Text} {token : Token}
    (hu : CodeUnit.isSpace u = false) (h : Token.scan u t = (token, tail)) :
    Text.tokens (u :: t) = ⟨token, u :: t⟩ :: Text.tokens tail := by
  rw [Text.tokens.eq_def]
  dsimp only
  rw [if_neg (by rw [hu]; decide), h]

end Tokens

namespace Reading

/-- A token that fits is read where it stands. -/
theorem run_token {u : CodeUnit} {t tail : Text} {token : Token} {r r' : Reading}
    (hu : CodeUnit.isSpace u = false) (hscan : Token.scan u t = (token, tail))
    (hnext : r.next token = .ok r') :
    r.run (Text.tokens (u :: t)) = r'.run (Text.tokens tail) := by
  rw [tokens_cons hu hscan, run, hnext]

/-- A state that takes the start of a value as the value that `frames` wait for. -/
def Expects (r : Reading) (frames : List Frame) : Prop :=
  ∀ token r', value frames token = .ok r' → r.next token = .ok r'

/-- Where a value is expected one may stand. -/
theorem expects_value (frames : List Frame) : Expects ⟨frames, .value⟩ frames := by
  intro token r' h
  cases token with
  | invalid code => cases h
  | _ => exact h

/-- So it is behind the bracket that opens an array. -/
theorem expects_firstItem (frames : List Frame) :
    Expects ⟨frames, .firstItem⟩ (.array [] :: frames) := by
  intro token r' h
  cases token with
  | invalid code => cases h
  | closeBracket => cases h
  | _ => exact h

/-- A state that takes a key behind the members `before`. -/
def ExpectsKey (r : Reading) (frames : List Frame) (before : List (Text × Json)) : Prop :=
  ∀ key, r.next (.string key) = .ok ⟨frames, .colon before key⟩

end Reading

/-- A text that is read as a value wherever a value may stand. -/
def ReadAs (t : Text) (j : Json) : Prop :=
  ∀ frames r, Reading.Expects r frames → ∀ rest, Delimited rest →
    r.run (Text.tokens (t ++ rest)) = (Reading.complete frames j).run (Text.tokens rest)

/-- A text that is read as further items of an array, up to its end. -/
def ReadAsItems (t : Text) (items : List Json) : Prop :=
  ∀ before frames r, Reading.Expects r (.array before :: frames) → ∀ rest,
    r.run (Text.tokens (t ++ unit ']' :: rest)) =
      (Reading.complete frames (.array (before.reverse ++ items))).run (Text.tokens rest)

/-- A text that is read as a member of an object. -/
def ReadAsMember (t : Text) (key : Text) (j : Json) : Prop :=
  ∀ before frames r, Reading.ExpectsKey r frames before → ∀ rest, Delimited rest →
    r.run (Text.tokens (t ++ rest)) =
      Reading.run ⟨frames, .nextMember ((key, j) :: before)⟩ (Text.tokens rest)

/-- A text that is read as further members of an object, up to its end. -/
def ReadAsMembers (t : Text) (members : List (Text × Json)) : Prop :=
  ∀ before frames r, Reading.ExpectsKey r frames before → ∀ rest,
    r.run (Text.tokens (t ++ unit '\x7d' :: rest)) =
      (Reading.complete frames (.object (before.reverse ++ members))).run (Text.tokens rest)

/-- A text of one token is read as the value that the token is. -/
theorem readAs_token {t : Text} {j : Json} {token : Token}
    (hvalue : ∀ frames, Reading.value frames token = .ok (Reading.complete frames j))
    (hscan : ∀ rest, Delimited rest → ∃ u tail, t = u :: tail ∧ CodeUnit.isSpace u = false ∧
      Token.scan u (tail ++ rest) = (token, rest)) : ReadAs t j := by
  intro frames r hr rest hrest
  obtain ⟨u, tail, rfl, hu, htoken⟩ := hscan rest hrest
  exact Reading.run_token hu htoken (hr _ _ (hvalue frames))

/-- A quoted text is one token. -/
theorem StringText.scan {t value : Text} (h : StringText t value) (rest : Text) :
    ∃ tail, quoted t ++ rest = unit '"' :: tail ∧
      Token.scan (unit '"') tail = (.string value, rest) := by
  refine ⟨t ++ unit '"' :: rest, by simp [quoted], ?_⟩
  have hstring := h.scanString rest
  calc Token.scan (unit '"') (t ++ unit '"' :: rest)
      = ((Text.scanString (t ++ unit '"' :: rest)).token,
          (Text.scanString (t ++ unit '"' :: rest)).rest) := rfl
    _ = (.string value, rest) := by
      rw [hstring]
      rfl

/-- A string is read as its text. -/
theorem StringText.readAs {t value : Text} (h : StringText t value) :
    ReadAs (quoted t) (.text value) := by
  intro frames r hr rest hrest
  obtain ⟨tail, heq, hscan⟩ := h.scan rest
  rw [heq]
  exact Reading.run_token (by decide) hscan (hr (.string value) _ rfl)

/-- Blanks around a value do not matter. -/
theorem ReadAs.element {before t after : Text} {j : Json} (hbefore : Blank before)
    (h : ReadAs t j) (hafter : Blank after) : ReadAs (before ++ t ++ after) j := by
  intro frames r hr rest hrest
  rw [List.append_assoc, List.append_assoc, hbefore.tokens,
    h frames r hr _ (hafter.delimited hrest), hafter.tokens]

/-- A value is read as the last of some items. -/
theorem ReadAs.lastItem {t : Text} {j : Json} (h : ReadAs t j) : ReadAsItems t [j] := by
  intro before frames r hr rest
  -- The bracket ends what stands in front of it, and closes the array.
  rw [h _ r hr _ (delimited_cons.mpr (by decide)), ← List.reverse_cons]
  exact Reading.run_token (by decide) rfl rfl

/-- A value and a comma are read in front of items. -/
theorem ReadAs.consItem {t rest : Text} {j : Json} {items : List Json} (h : ReadAs t j)
    (hrest : ReadAsItems rest items) : ReadAsItems (t ++ unit ',' :: rest) (j :: items) := by
  intro before frames r hr after
  -- Behind the item a comma makes the state one that takes a further item.
  rw [List.append_assoc, List.cons_append, h _ r hr _ (delimited_cons.mpr (by decide))]
  calc Reading.run ⟨frames, .nextItem (j :: before)⟩
        (Text.tokens (unit ',' :: (rest ++ unit ']' :: after)))
      = Reading.run ⟨.array (j :: before) :: frames, .value⟩
          (Text.tokens (rest ++ unit ']' :: after)) := Reading.run_token (by decide) rfl rfl
    _ = (Reading.complete frames (.array ((j :: before).reverse ++ items))).run
          (Text.tokens after) := hrest _ _ _ (Reading.expects_value _) after
    _ = (Reading.complete frames (.array (before.reverse ++ j :: items))).run
          (Text.tokens after) := by rw [List.reverse_cons, List.append_assoc]; rfl

/-- Items between brackets are an array. -/
theorem ReadAsItems.array {t : Text} {items : List Json} (h : ReadAsItems t items) :
    ReadAs (unit '[' :: t ++ [unit ']']) (.array items) := by
  intro frames r hr rest hrest
  rw [List.cons_append, List.cons_append, List.append_assoc, List.singleton_append]
  calc r.run (Text.tokens (unit '[' :: (t ++ unit ']' :: rest)))
      = Reading.run ⟨frames, .firstItem⟩ (Text.tokens (t ++ unit ']' :: rest)) :=
        Reading.run_token (by decide) rfl (hr .openBracket _ rfl)
    _ = (Reading.complete frames (.array items)).run (Text.tokens rest) :=
        h [] frames _ (Reading.expects_firstItem frames) rest

/-- Brackets around blanks are read as an empty array. -/
theorem Blank.array {blank : Text} (h : Blank blank) :
    ReadAs (unit '[' :: blank ++ [unit ']']) (.array []) := by
  intro frames r hr rest hrest
  rw [List.cons_append, List.cons_append, List.append_assoc, List.singleton_append]
  calc r.run (Text.tokens (unit '[' :: (blank ++ unit ']' :: rest)))
      = Reading.run ⟨frames, .firstItem⟩ (Text.tokens (blank ++ unit ']' :: rest)) :=
        Reading.run_token (by decide) rfl (hr .openBracket _ rfl)
    _ = (Reading.complete frames (.array [])).run (Text.tokens rest) := by
      rw [h.tokens]
      exact Reading.run_token (by decide) rfl rfl

/-- A key, a colon and a value are read as a member. -/
theorem ReadAs.member {before key after t value : Text} {j : Json} (hbefore : Blank before)
    (hkey : StringText key value) (hafter : Blank after) (h : ReadAs t j) :
    ReadAsMember (before ++ quoted key ++ after ++ unit ':' :: t) value j := by
  intro members frames r hr rest hrest
  -- The key waits in a frame of its own until its value is complete.
  obtain ⟨tail, heq, hscan⟩ := hkey.scan (after ++ unit ':' :: (t ++ rest))
  rw [List.append_assoc, List.append_assoc, List.append_assoc, hbefore.tokens, List.cons_append,
    heq]
  calc r.run (Text.tokens (unit '"' :: tail))
      = Reading.run ⟨frames, .colon members value⟩
          (Text.tokens (after ++ unit ':' :: (t ++ rest))) :=
        Reading.run_token (by decide) hscan (hr value)
    _ = Reading.run ⟨.object members value :: frames, .value⟩ (Text.tokens (t ++ rest)) := by
      rw [hafter.tokens]
      exact Reading.run_token (by decide) rfl rfl
    _ = Reading.run ⟨frames, .nextMember ((value, j) :: members)⟩ (Text.tokens rest) :=
        h _ _ (Reading.expects_value _) rest hrest

/-- A member is read as the last of some members. -/
theorem ReadAsMember.lastMember {t key : Text} {j : Json} (h : ReadAsMember t key j) :
    ReadAsMembers t [(key, j)] := by
  intro before frames r hr rest
  rw [h before frames r hr _ (delimited_cons.mpr (by decide)), ← List.reverse_cons]
  exact Reading.run_token (by decide) rfl rfl

/-- A member and a comma are read in front of members. -/
theorem ReadAsMember.consMember {t rest key : Text} {j : Json} {members : List (Text × Json)}
    (h : ReadAsMember t key j) (hrest : ReadAsMembers rest members) :
    ReadAsMembers (t ++ unit ',' :: rest) ((key, j) :: members) := by
  intro before frames r hr after
  -- Behind a comma only a key may follow, not the end of the object.
  rw [List.append_assoc, List.cons_append,
    h before frames r hr _ (delimited_cons.mpr (by decide))]
  calc Reading.run ⟨frames, .nextMember ((key, j) :: before)⟩
        (Text.tokens (unit ',' :: (rest ++ unit '\x7d' :: after)))
      = Reading.run ⟨frames, .key ((key, j) :: before)⟩
          (Text.tokens (rest ++ unit '\x7d' :: after)) := Reading.run_token (by decide) rfl rfl
    _ = (Reading.complete frames (.object (((key, j) :: before).reverse ++ members))).run
          (Text.tokens after) := hrest _ _ _ (fun key => rfl) after
    _ = (Reading.complete frames (.object (before.reverse ++ (key, j) :: members))).run
          (Text.tokens after) := by rw [List.reverse_cons, List.append_assoc]; rfl

/-- Members between braces are an object. -/
theorem ReadAsMembers.object {t : Text} {members : List (Text × Json)}
    (h : ReadAsMembers t members) :
    ReadAs (unit '\x7b' :: t ++ [unit '\x7d']) (.object members) := by
  intro frames r hr rest hrest
  rw [List.cons_append, List.cons_append, List.append_assoc, List.singleton_append]
  calc r.run (Text.tokens (unit '\x7b' :: (t ++ unit '\x7d' :: rest)))
      = Reading.run ⟨frames, .firstMember⟩ (Text.tokens (t ++ unit '\x7d' :: rest)) :=
        Reading.run_token (by decide) rfl (hr .openBrace _ rfl)
    _ = (Reading.complete frames (.object members)).run (Text.tokens rest) :=
        h [] frames _ (fun key => rfl) rest

/-- Braces around blanks are read as an empty object. -/
theorem Blank.object {blank : Text} (h : Blank blank) :
    ReadAs (unit '\x7b' :: blank ++ [unit '\x7d']) (.object []) := by
  intro frames r hr rest hrest
  rw [List.cons_append, List.cons_append, List.append_assoc, List.singleton_append]
  calc r.run (Text.tokens (unit '\x7b' :: (blank ++ unit '\x7d' :: rest)))
      = Reading.run ⟨frames, .firstMember⟩ (Text.tokens (blank ++ unit '\x7d' :: rest)) :=
        Reading.run_token (by decide) rfl (hr .openBrace _ rfl)
    _ = (Reading.complete frames (.object [])).run (Text.tokens rest) := by
      rw [h.tokens]
      exact Reading.run_token (by decide) rfl rfl

mutual

/-- The text of a value is read as the value. -/
theorem ValueText.readAs {t : Text} {tree : Tree} : ValueText t tree → ReadAs t tree.toJson
  | .null => readAs_token (fun _ => rfl) fun _ hrest => ⟨unit 'n', units "ull", rfl, by decide,
      scan_word (by decide) (by decide) (by decide) rfl hrest⟩
  | .true => readAs_token (fun _ => rfl) fun _ hrest => ⟨unit 't', units "rue", rfl, by decide,
      scan_word (by decide) (by decide) (by decide) rfl hrest⟩
  | .false => readAs_token (fun _ => rfl) fun _ hrest => ⟨unit 'f', units "alse", rfl, by decide,
      scan_word (by decide) (by decide) (by decide) rfl hrest⟩
  | .number h => readAs_token (fun _ => rfl) fun _ hrest => h.scan hrest
  | .text h => h.readAs
  | .emptyArray h => h.array
  | .array h => h.readAs.array
  | .emptyObject h => h.object
  | .object h => h.readAs.object

/-- A value between blanks is read as what it stands for. -/
theorem ElementText.readAs {t : Text} {tree : Tree} : ElementText t tree → ReadAs t tree.toJson
  | .mk hbefore h hafter => h.readAs.element hbefore hafter

/-- Items are read as what they stand for. -/
theorem ItemsText.readAs {t : Text} {items : List Tree} :
    ItemsText t items → ReadAsItems t (Tree.toJsonItems items)
  | .last h => h.readAs.lastItem
  | .cons h hrest => h.readAs.consItem hrest.readAs

/-- A member is read as what it stands for. -/
theorem MemberText.readAs {t : Text} {member : Text × Tree} :
    MemberText t member → ReadAsMember t member.1 member.2.toJson
  | .mk hbefore hkey hafter h => h.readAs.member hbefore hkey hafter

/-- Members are read as what they stand for. -/
theorem MembersText.readAs {t : Text} {members : List (Text × Tree)} :
    MembersText t members → ReadAsMembers t (Tree.toJsonMembers members)
  | .last h => h.readAs.lastMember
  | .cons h hrest => h.readAs.consMember hrest.readAs

end

/-- A document is read as the value it spells. -/
theorem DocumentText.read {t : Text} {tree : Tree} (h : DocumentText t tree) :
    Json.read t = .ok tree.toJson := by
  have hread := ElementText.readAs h [] _ (Reading.expects_value []) [] (by simp [Delimited])
  rw [List.append_nil] at hread
  unfold Json.read
  rw [hread, Text.tokens.eq_def]
  rfl

end TypedReads
