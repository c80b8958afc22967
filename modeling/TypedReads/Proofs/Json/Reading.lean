import TypedReads.Proofs.Json.Normal
import TypedReads.Proofs.Json.Numbers

/-!
# The numbers that a reader gives

Every number in a value that was read comes from a numeral, so what holds of the values of all numerals
holds of all numbers in it (`Json.numbers_read`). The state of the reader keeps this of every value it
has collected: `Reading.next_numbers` says so of one token and `Reading.run_numbers` of a run. In
particular a value that was read keeps exact only the integers that `Numeral.toJson` keeps exact
(`Json.kept_of_read`).
-/

namespace TypedReads

variable {P : Double → Prop} {Q : ℤ → Prop}

/-- A token that carries no number but that of a numeral. -/
def Token.Numbers (P : Double → Prop) (Q : ℤ → Prop) : Token → Prop
  | .word j => j.Numbers P Q
  | _ => True

/-- A container whose numbers so far all have a property. -/
def Frame.Numbers (P : Double → Prop) (Q : ℤ → Prop) : Frame → Prop
  | .array before => ∀ j ∈ before, j.Numbers P Q
  | .object before _ => ∀ e ∈ before, e.2.Numbers P Q

/-- What is due, where the numbers so far all have a property. -/
def Due.Numbers (P : Double → Prop) (Q : ℤ → Prop) : Due → Prop
  | .nextItem before => ∀ j ∈ before, j.Numbers P Q
  | .nextMember before | .key before | .colon before _ => ∀ e ∈ before, e.2.Numbers P Q
  | .done root => root.Numbers P Q
  | _ => True

/-- A state whose numbers so far all have a property. -/
def Reading.Numbers (P : Double → Prop) (Q : ℤ → Prop) (r : Reading) : Prop :=
  (∀ f ∈ r.frames, f.Numbers P Q) ∧ r.due.Numbers P Q

section Scan

/-- A numeral, or what is left of one, is no word. -/
theorem scanNumeral_numbers (negative : Bool) (first : ℕ) (rest : Text) :
    (Text.scanNumeral negative first rest).1.Numbers P Q := by
  unfold Text.scanNumeral
  dsimp only
  split
  · trivial
  · split <;> trivial

/-- A word has no numbers. -/
theorem wordToken_numbers (word : Text) : (wordToken word).Numbers P Q := by
  unfold wordToken
  split_ifs <;> trivial

/-- Nor has a string. -/
theorem ScannedString.token_numbers (s : ScannedString) : s.token.Numbers P Q := by
  unfold ScannedString.token
  split <;> trivial

/-- A token has the numbers that the scanner can make. -/
theorem scan_numbers (u : CodeUnit) (rest : Text) : (Token.scan u rest).1.Numbers P Q := by
  unfold Token.scan
  repeat' split
  all_goals first
    | trivial
    | exact ScannedString.token_numbers _
    | exact scanNumeral_numbers ..
    | exact wordToken_numbers _

/-- The tokens of a text carry no numbers but those of numerals. -/
theorem tokens_numbers (t : Text) : ∀ l ∈ Text.tokens t, l.token.Numbers P Q := by
  fun_induction Text.tokens t with
  | case1 => exact fun l hl => absurd hl List.not_mem_nil
  | case2 u rest hspace ih => exact ih
  | case3 u rest hspace hle ih => exact List.forall_mem_cons.mpr ⟨scan_numbers u rest, ih⟩

end Scan

namespace Reading

variable (hnumeral : ∀ n : Numeral, n.toJson.Numbers P Q)

/-- A complete value joins the container it stands in. -/
theorem complete_numbers {frames : List Frame} {j : Json} (hframes : ∀ f ∈ frames, f.Numbers P Q)
    (hj : j.Numbers P Q) : (complete frames j).Numbers P Q := by
  cases frames with
  | nil => exact ⟨hframes, hj⟩
  | cons f frames =>
    obtain ⟨hf, houter⟩ := List.forall_mem_cons.mp hframes
    cases f with
    | array before => exact ⟨houter, List.forall_mem_cons.mpr ⟨hj, hf⟩⟩
    | object before key => exact ⟨houter, List.forall_mem_cons.mpr ⟨hj, hf⟩⟩

include hnumeral

/-- Taking a value keeps to the numbers of the frames and the token. -/
theorem value_numbers {frames : List Frame} {token : Token} {r' : Reading}
    (hframes : ∀ f ∈ frames, f.Numbers P Q) (htoken : token.Numbers P Q)
    (h : value frames token = .ok r') : r'.Numbers P Q := by
  cases token with
  | openBrace =>
    cases h
    exact ⟨hframes, trivial⟩
  | openBracket =>
    cases h
    exact ⟨hframes, trivial⟩
  | word j =>
    cases h
    exact complete_numbers hframes htoken
  | number n =>
    cases h
    exact complete_numbers hframes (hnumeral n)
  | string t =>
    cases h
    exact complete_numbers hframes trivial
  | _ => cases h

/-- One token keeps the property. -/
theorem next_numbers {r r' : Reading} {token : Token} (hr : r.Numbers P Q)
    (htoken : token.Numbers P Q) (h : r.next token = .ok r') : r'.Numbers P Q := by
  obtain ⟨frames, due⟩ := r
  obtain ⟨hframes, hdue⟩ := hr
  cases due with
  | value =>
    cases token with
    | invalid code => cases h
    | _ => exact value_numbers hnumeral hframes htoken h
  | firstItem =>
    -- A value joins an array that is still empty.
    have hinside : ∀ f ∈ Frame.array [] :: frames, f.Numbers P Q :=
      List.forall_mem_cons.mpr ⟨fun j hj => absurd hj List.not_mem_nil, hframes⟩
    cases token with
    | invalid code => cases h
    | closeBracket =>
      cases h
      exact complete_numbers hframes trivial
    | _ => exact value_numbers hnumeral hinside htoken h
  | nextItem before =>
    -- The items were collected in reverse.
    cases token with
    | closeBracket =>
      cases h
      exact complete_numbers hframes
        (Json.numbersItems_iff.mpr fun j hj => hdue j (List.mem_reverse.mp hj))
    | comma =>
      cases h
      exact ⟨List.forall_mem_cons.mpr ⟨hdue, hframes⟩, trivial⟩
    | _ => cases h
  | firstMember =>
    -- The first key of an object finds no members before it.
    have hnone : ∀ e ∈ ([] : List (Text × Json)), e.2.Numbers P Q := fun e he =>
      absurd he List.not_mem_nil
    cases token with
    | closeBrace =>
      cases h
      exact complete_numbers hframes trivial
    | string t =>
      cases h
      exact ⟨hframes, hnone⟩
    | _ => cases h
  | nextMember before =>
    -- The members were collected in reverse as well.
    cases token with
    | closeBrace =>
      cases h
      exact complete_numbers hframes
        (Json.numbersMembers_iff.mpr fun e he => hdue e (List.mem_reverse.mp he))
    | comma =>
      cases h
      exact ⟨hframes, hdue⟩
    | _ => cases h
  | key before =>
    -- A key carries no number.
    cases token with
    | string t =>
      cases h
      exact ⟨hframes, hdue⟩
    | _ => cases h
  | colon before key =>
    -- The members wait in a frame for the value of the key.
    cases token with
    | colon =>
      cases h
      exact ⟨List.forall_mem_cons.mpr ⟨hdue, hframes⟩, trivial⟩
    | _ => cases h
  | done root =>
    -- Nothing may follow the root.
    cases token <;> cases h

omit hnumeral in
/-- What has been read has the numbers of the reading. -/
theorem finish_numbers {r : Reading} {j : Json} (hr : r.Numbers P Q) (h : r.finish = .ok j) :
    j.Numbers P Q := by
  obtain ⟨frames, due⟩ := r
  cases due with
  | done root =>
    cases h
    exact hr.2
  | _ => cases h

/-- A run of tokens keeps the property to the end. -/
theorem run_numbers {tokens : List Lexeme} (htokens : ∀ l ∈ tokens, l.token.Numbers P Q)
    {r : Reading} (hr : r.Numbers P Q) {j : Json} (h : r.run tokens = .ok j) :
    j.Numbers P Q := by
  -- By induction on the tokens, from any state that has the property.
  induction tokens generalizing r with
  | nil =>
    cases hfinish : r.finish with
    | error code =>
      rw [run, hfinish] at h
      cases h
    | ok root =>
      rw [run, hfinish] at h
      cases h
      exact finish_numbers hr hfinish
  | cons l tokens ih =>
    obtain ⟨hl, hrest⟩ := List.forall_mem_cons.mp htokens
    cases hnext : r.next l.token with
    | error code =>
      rw [run, hnext] at h
      cases h
    | ok r' =>
      rw [run, hnext] at h
      exact ih hrest (next_numbers hnumeral hr hl hnext) h

end Reading

namespace Json

/-- What holds of the values of all numerals holds of all numbers in a value that was read. -/
theorem numbers_read (hnumeral : ∀ n : Numeral, n.toJson.Numbers P Q) {t : Text} {j : Json}
    (h : Json.read t = .ok j) : j.Numbers P Q := by
  have hstart : Reading.Numbers P Q ⟨[], .value⟩ :=
    ⟨fun f hf => absurd hf List.not_mem_nil, trivial⟩
  exact Reading.run_numbers hnumeral (tokens_numbers t) hstart h

/-- A numeral is an exact integer only if the reader keeps it. -/
theorem kept_numeral (n : Numeral) : n.toJson.Kept := by
  unfold Numeral.toJson
  split
  · split_ifs with h
    · trivial
    · rw [not_or, not_not] at h
      exact h
  · trivial

/-- A value that was read keeps exact what the reader keeps exact. -/
theorem kept_of_read {t : Text} {j : Json} (h : Json.read t = .ok j) : j.Kept :=
  numbers_read kept_numeral h

end Json

/-- The members of a document keep exact what the reader keeps exact. -/
theorem Document.kept_of_entries {t : Text} {members : List (Text × Json)}
    (h : Document.entries t = .ok members) : Json.KeptMembers members := by
  obtain ⟨raw, hread, rfl⟩ := Document.read_of_entries h
  exact Json.NumbersMembers.normalize (Json.kept_of_read hread)

end TypedReads
