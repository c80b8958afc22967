import TypedReads.Proofs.Json.Tokens

/-!
# What is read follows the grammar

The converse of acceptance: a text that is read as a value spells a tree with that value
(`exists_text_of_read`). A state of the reader that ends well asks something of the text ahead: a
value, the rest of an array, the rest of an object. `run_value`, `run_nextItem` and `run_nextMember`
find it there, by mutual recursion on the length of that text, and say in which state the reader is
behind it. A value is found without the blanks behind it, since they are in front of the next token.

The rest of an array depends on the value in front of it only by the comma between them, so
`ItemsTail` says of a text that it makes items out of any value in front; `MembersTail` is the same
for a member.
-/

namespace TypedReads

/-- What may follow a value in an array, up to the bracket. -/
def ItemsTail (t : Text) (items : List Tree) : Prop :=
  ∀ blank value tree, Blank blank → ValueText value tree →
    ItemsText (blank ++ value ++ t) (tree :: items)

/-- Blanks are an end of items. -/
theorem Blank.itemsTail {t : Text} (h : Blank t) : ItemsTail t [] :=
  fun _ _ _ hblank hvalue => .last (.mk hblank hvalue h)

/-- A comma and items are an end of items too. -/
theorem ItemsText.tail {blank t : Text} {items : List Tree} (hblank : Blank blank)
    (h : ItemsText t items) : ItemsTail (blank ++ unit ',' :: t) items := by
  intro before value tree hbefore hvalue
  have hitems := ItemsText.cons (.mk hbefore hvalue hblank) h
  simpa using hitems

/-- The text of a key with its value, without the blanks behind the value. -/
inductive PairText : Text → Text × Tree → Prop
  | mk {before key after blank value text : Text} {tree : Tree} (hbefore : Blank before)
    (hkey : StringText key value) (hafter : Blank after) (hblank : Blank blank)
    (h : ValueText text tree) :
    PairText (before ++ quoted key ++ after ++ unit ':' :: (blank ++ text)) (value, tree)

/-- A pair and blanks are a member. -/
theorem PairText.member {t blank : Text} {member : Text × Tree} (h : PairText t member)
    (hblank : Blank blank) : MemberText (t ++ blank) member := by
  obtain ⟨hbefore, hkey, hafter, hfront, hvalue⟩ := h
  have hmember := MemberText.mk hbefore hkey hafter (.mk hfront hvalue hblank)
  simpa using hmember

/-- What may follow a member in an object, up to the brace. -/
def MembersTail (t : Text) (members : List (Text × Tree)) : Prop :=
  ∀ pair member, PairText pair member → MembersText (pair ++ t) (member :: members)

/-- Blanks are an end of members. -/
theorem Blank.membersTail {t : Text} (h : Blank t) : MembersTail t [] :=
  fun _ _ hpair => .last (hpair.member h)

/-- A comma and members are an end of members too. -/
theorem MembersText.tail {blank t : Text} {members : List (Text × Tree)} (hblank : Blank blank)
    (h : MembersText t members) : MembersTail (blank ++ unit ',' :: t) members := by
  intro pair member hpair
  have hmembers := MembersText.cons (hpair.member hblank) h
  simpa using hmembers

/-- A text cut behind its first token, with the blanks in front of that. -/
structure Cut (t front text : Text) (lexeme : Lexeme) (rest : Text) : Prop where
  blank : Blank front
  token : TokenText text lexeme.token
  eq : t = front ++ (text ++ rest)
  shorter : rest.length < t.length
  tokens : Text.tokens t = lexeme :: Text.tokens rest

namespace Reading

/-- A state that reads a text to its end sees only blanks, or a first token that it takes. -/
theorem run_cases {r : Reading} {t : Text} {j : Json} (h : r.run (Text.tokens t) = .ok j) :
    (Blank t ∧ r.finish = .ok j) ∨
    ∃ blank text lexeme rest r', Cut t blank text lexeme rest ∧ r.next lexeme.token = .ok r' ∧
      r'.run (Text.tokens rest) = .ok j := by
  rcases tokens_cases t with ⟨hblank, hnil⟩ | ⟨blank, u, tail, hblank, ht, -, htokens⟩
  -- Behind the last token the state has to be a final one.
  · rw [hnil, run] at h
    refine .inl ⟨hblank, ?_⟩
    cases hfinish : r.finish with
    | ok j' =>
      rw [hfinish] at h
      cases h
      rfl
    | error code =>
      rw [hfinish] at h
      cases h
  · generalize hscan : Token.scan u tail = scanned at htokens
    obtain ⟨token, rest⟩ := scanned
    dsimp only at htokens
    rw [htokens, run] at h
    dsimp only at h
    cases hnext : r.next token with
    | error code =>
      rw [hnext] at h
      cases h
    | ok r' =>
      rw [hnext] at h
      -- No state takes an invalid token, so a text of the grammar was scanned.
      have hvalid : token.Valid := by
        rintro code rfl
        cases hnext
      obtain ⟨text, htext, htail⟩ := scan_text hscan hvalid
      have hlength : rest.length < t.length := by
        rw [ht, htail, List.length_append, List.length_cons, List.length_append]
        omega
      exact .inr ⟨blank, u :: text, ⟨token, u :: tail⟩, rest, r',
        ⟨hblank, htext, by rw [ht, htail]; rfl, hlength, htokens⟩, hnext, h⟩

/-- Where the text may not end, a token is taken. -/
theorem run_cut {r : Reading} {t : Text} {j : Json} (hdue : ∃ code, r.finish = .error code)
    (h : r.run (Text.tokens t) = .ok j) :
    ∃ blank text lexeme rest r', Cut t blank text lexeme rest ∧ r.next lexeme.token = .ok r' ∧
      r'.run (Text.tokens rest) = .ok j := by
  rcases run_cases h with ⟨-, hfinish⟩ | htoken
  · obtain ⟨code, hcode⟩ := hdue
    rw [hcode] at hfinish
    cases hfinish
  · exact htoken

/-- A value is one token, or starts an array or an object. -/
theorem value_cases {frames : List Frame} {token : Token} {text : Text} {r : Reading}
    (htext : TokenText text token) (h : value frames token = .ok r) :
    (∃ tree, ValueText text tree ∧ r = complete frames tree.toJson) ∨
    (text = [unit '['] ∧ r = ⟨frames, .firstItem⟩) ∨
    (text = [unit '\x7b'] ∧ r = ⟨frames, .firstMember⟩) := by
  cases htext with
  | openBrace =>
    cases h
    exact .inr (.inr ⟨rfl, rfl⟩)
  | openBracket =>
    cases h
    exact .inr (.inl ⟨rfl, rfl⟩)
  -- A word, a numeral or a string is the whole value.
  | null =>
    cases h
    exact .inl ⟨_, .null, rfl⟩
  | true =>
    cases h
    exact .inl ⟨_, .true, rfl⟩
  | false =>
    cases h
    exact .inl ⟨_, .false, rfl⟩
  | number hnumeral =>
    cases h
    exact .inl ⟨_, .number hnumeral, rfl⟩
  | string hstring =>
    cases h
    exact .inl ⟨_, .text hstring, rfl⟩
  | _ => cases h

/-- An array ends at once, or goes on like one that waits for a value. -/
theorem run_firstItem {frames : List Frame} {t : Text} {j : Json}
    (h : run ⟨frames, .firstItem⟩ (Text.tokens t) = .ok j) :
    (∃ blank rest, Blank blank ∧ t = blank ++ unit ']' :: rest ∧
      (complete frames (.array [])).run (Text.tokens rest) = .ok j) ∨
    run ⟨.array [] :: frames, .value⟩ (Text.tokens t) = .ok j := by
  obtain ⟨blank, text, ⟨token, start⟩, rest, r', hcut, hnext, hrun⟩ := run_cut ⟨_, rfl⟩ h
  have hnext' : token ≠ .closeBracket →
      next ⟨.array [] :: frames, .value⟩ token = .ok r' := by
    intro hne
    cases token with
    | closeBracket => exact absurd rfl hne
    | _ => exact hnext
  by_cases hclose : token = .closeBracket
  · subst hclose
    cases hnext
    obtain ⟨hblank, htext, rfl⟩ := hcut
    cases htext
    exact .inl ⟨blank, rest, hblank, rfl, hrun⟩
  · refine .inr ?_
    rw [hcut.tokens, run, hnext' hclose]
    exact hrun

/-- An object ends at once, or goes on like one that waits for a key. -/
theorem run_firstMember {frames : List Frame} {t : Text} {j : Json}
    (h : run ⟨frames, .firstMember⟩ (Text.tokens t) = .ok j) :
    (∃ blank rest, Blank blank ∧ t = blank ++ unit '\x7d' :: rest ∧
      (complete frames (.object [])).run (Text.tokens rest) = .ok j) ∨
    run ⟨frames, .key []⟩ (Text.tokens t) = .ok j := by
  obtain ⟨blank, text, ⟨token, start⟩, rest, r', hcut, hnext, hrun⟩ := run_cut ⟨_, rfl⟩ h
  have hnext' : token ≠ .closeBrace → next ⟨frames, .key []⟩ token = .ok r' := by
    intro hne
    cases token with
    | closeBrace => exact absurd rfl hne
    | comma => cases hnext
    | _ => exact hnext
  by_cases hclose : token = .closeBrace
  · subst hclose
    cases hnext
    obtain ⟨hblank, htext, rfl⟩ := hcut
    cases htext
    exact .inl ⟨blank, rest, hblank, rfl, hrun⟩
  · refine .inr ?_
    rw [hcut.tokens, run, hnext' hclose]
    exact hrun

/-- A key stands in front of a colon. -/
theorem run_key {frames : List Frame} {before : List (Text × Json)} {t : Text} {j : Json}
    (h : run ⟨frames, .key before⟩ (Text.tokens t) = .ok j) :
    ∃ blank key value after rest, Blank blank ∧ StringText key value ∧ Blank after ∧
      t = blank ++ quoted key ++ after ++ unit ':' :: rest ∧
      run ⟨.object before value :: frames, .value⟩ (Text.tokens rest) = .ok j := by
  obtain ⟨blank, text, ⟨token, start⟩, rest, r', ⟨hblank, htext, rfl, -, -⟩, hnext, hrun⟩ :=
    run_cut ⟨_, rfl⟩ h
  cases htext with
  | string hkey =>
    cases hnext
    obtain ⟨after, text, ⟨token, start⟩, rest, r', ⟨hafter, htext, rfl, -, -⟩, hnext, hrun⟩ :=
      run_cut ⟨_, rfl⟩ hrun
    cases htext with
    | colon =>
      cases hnext
      exact ⟨blank, _, _, after, rest, hblank, hkey, hafter, by simp, hrun⟩
    | _ => cases hnext
  | _ => cases hnext

mutual

/-- Where a value is due, one stands behind blanks. -/
theorem run_value {frames : List Frame} {t : Text} {j : Json}
    (h : run ⟨frames, .value⟩ (Text.tokens t) = .ok j) :
    ∃ blank text tree rest, Blank blank ∧ ValueText text tree ∧ t = blank ++ (text ++ rest) ∧
      (complete frames tree.toJson).run (Text.tokens rest) = .ok j := by
  obtain ⟨blank, text, ⟨token, start⟩, rest, r', ⟨hblank, htext, ht, hlt, -⟩, hnext, hrun⟩ :=
    run_cut ⟨_, rfl⟩ h
  have hvalue : value frames token = .ok r' := by
    cases token with
    | invalid code => cases hnext
    | _ => exact hnext
  rcases value_cases htext hvalue with ⟨tree, htree, rfl⟩ | ⟨rfl, rfl⟩ | ⟨rfl, rfl⟩
  · exact ⟨blank, text, tree, rest, hblank, htree, ht, hrun⟩
  · -- An array, empty or with a first item.
    rcases run_firstItem hrun with ⟨inner, after, hinner, hrest, hafter⟩ | hfirst
    · exact ⟨blank, _, _, after, hblank, .emptyArray hinner, by simp [ht, hrest], hafter⟩
    · obtain ⟨front, text, tree, tail, hfront, htree, hrest, hnext⟩ := run_value hfirst
      have hle : tail.length ≤ rest.length := by simp [hrest]; omega
      obtain ⟨more, items, after, hmore, htail, hafter⟩ := run_nextItem hnext
      exact ⟨blank, _, _, after, hblank, .array (hmore front text tree hfront htree),
        by simp [ht, hrest, htail], hafter⟩
  · -- An object, empty or with a first member.
    rcases run_firstMember hrun with ⟨inner, after, hinner, hrest, hafter⟩ | hkey
    · exact ⟨blank, _, _, after, hblank, .emptyObject hinner, by simp [ht, hrest], hafter⟩
    · obtain ⟨pair, member, tail, hpair, hle, hrest, hnext⟩ := run_pair hkey
      obtain ⟨more, members, after, hmore, htail, hafter⟩ := run_nextMember hnext
      exact ⟨blank, _, _, after, hblank, .object (hmore pair member hpair),
        by simp [ht, hrest, htail], hafter⟩
termination_by t.length

/-- Where a key is due, it stands there with its value. -/
theorem run_pair {frames : List Frame} {before : List (Text × Json)} {t : Text} {j : Json}
    (h : run ⟨frames, .key before⟩ (Text.tokens t) = .ok j) :
    ∃ pair member rest, PairText pair member ∧ rest.length ≤ t.length ∧ t = pair ++ rest ∧
      run ⟨frames, .nextMember ((member.1, member.2.toJson) :: before)⟩ (Text.tokens rest) =
        .ok j := by
  obtain ⟨front, key, value, behind, tail, hfront, hkey, hbehind, ht, hvalue⟩ := run_key h
  have hlt : tail.length < t.length := by simp [ht]; omega
  obtain ⟨space, text, tree, rest, hspace, htree, htail, hrun⟩ := run_value hvalue
  exact ⟨_, _, rest, .mk hfront hkey hbehind hspace htree, by simp [ht, htail]; omega,
    by simp [ht, htail], hrun⟩
termination_by t.length

/-- Behind an item stands the rest of its array. -/
theorem run_nextItem {frames : List Frame} {before : List Json} {t : Text} {j : Json}
    (h : run ⟨frames, .nextItem before⟩ (Text.tokens t) = .ok j) :
    ∃ text items rest, ItemsTail text items ∧ t = text ++ unit ']' :: rest ∧
      (complete frames (.array (before.reverse ++ Tree.toJsonItems items))).run
        (Text.tokens rest) = .ok j := by
  obtain ⟨blank, text, ⟨token, start⟩, rest, r', ⟨hblank, htext, ht, hlt, -⟩, hnext, hrun⟩ :=
    run_cut ⟨_, rfl⟩ h
  cases htext with
  | closeBracket =>
    cases hnext
    exact ⟨blank, [], rest, hblank.itemsTail, ht, by simpa [Tree.toJsonItems] using hrun⟩
  | comma =>
    cases hnext
    obtain ⟨front, text, tree, tail, hfront, htree, hrest, hnext⟩ := run_value hrun
    have hle : tail.length ≤ rest.length := by simp [hrest]; omega
    obtain ⟨more, items, after, hmore, htail, hafter⟩ := run_nextItem hnext
    refine ⟨_, _, after, (hmore front text tree hfront htree).tail hblank, ?_, ?_⟩
    · simp [ht, hrest, htail]
    · simpa [Tree.toJsonItems] using hafter
  | _ => cases hnext
termination_by t.length

/-- Behind a member stands the rest of its object. -/
theorem run_nextMember {frames : List Frame} {before : List (Text × Json)} {t : Text} {j : Json}
    (h : run ⟨frames, .nextMember before⟩ (Text.tokens t) = .ok j) :
    ∃ text members rest, MembersTail text members ∧ t = text ++ unit '\x7d' :: rest ∧
      (complete frames (.object (before.reverse ++ Tree.toJsonMembers members))).run
        (Text.tokens rest) = .ok j := by
  obtain ⟨blank, text, ⟨token, start⟩, rest, r', ⟨hblank, htext, ht, hlt, -⟩, hnext, hrun⟩ :=
    run_cut ⟨_, rfl⟩ h
  cases htext with
  | closeBrace =>
    cases hnext
    exact ⟨blank, [], rest, hblank.membersTail, ht, by simpa [Tree.toJsonMembers] using hrun⟩
  | comma =>
    cases hnext
    obtain ⟨pair, member, tail, hpair, hle, hrest, hnext⟩ := run_pair hrun
    obtain ⟨more, members, after, hmore, htail, hafter⟩ := run_nextMember hnext
    refine ⟨_, _, after, (hmore pair member hpair).tail hblank, ?_, ?_⟩
    · simp [ht, hrest, htail]
    · simpa [Tree.toJsonMembers] using hafter
  | _ => cases hnext
termination_by t.length

end

end Reading

/-- A text that is read as a value spells it. -/
theorem exists_text_of_read {t : Text} {j : Json} (h : Json.read t = .ok j) :
    ∃ tree, DocumentText t tree ∧ tree.toJson = j := by
  obtain ⟨blank, text, tree, rest, hblank, htext, rfl, hrun⟩ := Reading.run_value h
  -- Behind the root nothing is read.
  rcases Reading.run_cases hrun with ⟨hrest, hfinish⟩ | ⟨_, _, ⟨token, _⟩, _, _, _, hnext, _⟩
  · cases hfinish
    have hdocument := ElementText.mk hblank htext hrest
    rw [List.append_assoc] at hdocument
    exact ⟨tree, hdocument, rfl⟩
  · cases token <;> cases hnext

end TypedReads
