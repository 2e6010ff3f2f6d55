import ScopeMachine.Proofs.Json.Spelling

set_option autoImplicit false

/-!
# Reading back

Every tree whose numbers are spelled as numbers is read back from its text. The reader is given twice as
many nested calls as there are characters; a value never needs more than two for each character that it
is written with.
-/

namespace ScopeMachine.Json

/-- A tree whose numbers are well-formed. -/
inductive WellFormed : Json → Prop where
  | null : WellFormed .null
  | boolean (value : Bool) : WellFormed (.boolean value)
  | number {numeral : Numeral} (spelled : numeral.WellFormed) : WellFormed (.number numeral)
  | string (text : Option String) : WellFormed (.string text)
  | array {items : List Json} (inner : ∀ item ∈ items, WellFormed item) : WellFormed (.array items)
  | object {members : List (Option String × Json)}
      (inner : ∀ member ∈ members, WellFormed member.2) : WellFormed (.object members)

/-- The writer puts the text of a value in front of what follows. -/
def Lengthens (json : Json) : Prop :=
  ∀ rest, rest.length < (json.write rest).length

/-- The reader gets a value back, given two calls for each of its characters. -/
def Returns (json : Json) : Prop :=
  ∀ fuel rest, 2 * (json.write rest).length ≤ fuel + 2 * rest.length → Delimits rest →
    readValue fuel (json.write rest) = some (json, rest)

/-! ## Lengths -/

private theorem length_lt_writeItems {items : List Json} (inner : ∀ item ∈ items, item.Lengthens)
    (rest : List Char) : rest.length < (writeItems items rest).length := by
  induction items with
  | nil => simp [writeItems]
  | cons item items ih =>
    have later := ih fun other member => inner other (.tail _ member)
    have here := inner item (.head _) (writeItems items rest)
    rw [writeItems, List.length_cons]
    omega

private theorem length_lt_writeMembers {members : List (Option String × Json)}
    (inner : ∀ member ∈ members, member.2.Lengthens) (rest : List Char) :
    rest.length < (writeMembers members rest).length := by
  induction members with
  | nil => simp [writeMembers]
  | cons member members ih =>
    obtain ⟨key, value⟩ := member
    have later := ih fun other member => inner other (.tail _ member)
    have here := inner (key, value) (.head _) (writeMembers members rest)
    have name := length_lt_writeString key (':' :: value.write (writeMembers members rest))
    rw [writeMembers, List.length_cons]
    rw [List.length_cons] at name
    dsimp only at here
    omega

private theorem WellFormed.lengthens {json : Json} (wellFormed : json.WellFormed) : json.Lengthens := by
  intro rest
  induction wellFormed generalizing rest with
  | null => simp only [write, List.length_cons]; omega
  | boolean value => cases value <;> simp only [write, List.length_cons] <;> omega
  | number spelled => exact Numeral.length_lt_write spelled rest
  | string text => exact length_lt_writeString text rest
  | @array items inner ih =>
    cases items with
    | nil => simp only [write, List.length_cons]; omega
    | cons item items =>
      have here := ih item (.head _) (writeItems items rest)
      have later := length_lt_writeItems (fun other member => ih other (.tail _ member)) rest
      rw [write, List.length_cons]
      omega
  | @object members inner ih =>
    cases members with
    | nil => simp only [write, List.length_cons]; omega
    | cons member members =>
      obtain ⟨key, value⟩ := member
      have here := ih (key, value) (.head _) (writeMembers members rest)
      have later := length_lt_writeMembers (fun other member => ih other (.tail _ member)) rest
      have name := length_lt_writeString key (':' :: value.write (writeMembers members rest))
      rw [write, List.length_cons]
      rw [List.length_cons] at name
      dsimp only at here
      omega

/-! ## Delimiters -/

private theorem delimits_writeItems (items : List Json) (rest : List Char) :
    Delimits (writeItems items rest) := by
  cases items with
  | nil =>
    rintro c ⟨⟩
    exact .inr (.inl rfl)
  | cons item items =>
    rw [writeItems]
    rintro c ⟨⟩
    exact .inl rfl

private theorem delimits_writeMembers (members : List (Option String × Json)) (rest : List Char) :
    Delimits (writeMembers members rest) := by
  cases members with
  | nil =>
    rintro c ⟨⟩
    exact .inr (.inr rfl)
  | cons member members =>
    rw [writeMembers]
    rintro c ⟨⟩
    exact .inl rfl

private theorem skipBlank_cons {c : Char} (plain : isBlank c = false) (rest : List Char) :
    skipBlank (c :: rest) = c :: rest := by
  simp [skipBlank, plain]

private theorem isBlank_of_isDigit {c : Char} (digit : isDigit c = true) : isBlank c = false := by
  rw [Bool.eq_false_iff]
  intro blank
  simp only [isBlank, Bool.or_eq_true, beq_iff_eq] at blank
  obtain ((rfl | rfl) | rfl) | rfl := blank <;> exact absurd digit (by decide)

/-- No value starts with a blank or with a closing bracket. -/
theorem WellFormed.starts {json : Json} (wellFormed : json.WellFormed) (rest : List Char) :
    ∃ first more, json.write rest = first :: more ∧ isBlank first = false ∧ first ≠ ']' := by
  cases wellFormed with
  | null => exact ⟨_, _, rfl, rfl, by decide⟩
  | boolean value => cases value <;> exact ⟨_, _, rfl, rfl, by decide⟩
  | number spelled =>
    obtain ⟨first, more, starts, sign⟩ := Numeral.write_starts spelled rest
    refine ⟨first, more, starts, ?_⟩
    obtain ⟨-, rfl⟩ | ⟨-, digit⟩ := sign
    · exact ⟨rfl, by decide⟩
    · refine ⟨isBlank_of_isDigit digit, ?_⟩
      rintro rfl
      exact absurd digit (by decide)
  | string text =>
    obtain ⟨inside, starts, -⟩ := readString_write text rest
    exact ⟨_, inside, starts, rfl, by decide⟩
  | @array items =>
    cases items <;> rw [write] <;> exact ⟨_, _, rfl, rfl, by decide⟩
  | @object members =>
    cases members <;> rw [write] <;> exact ⟨_, _, rfl, rfl, by decide⟩

/-! ## Values -/

private theorem readValue_numeral {first : Char} (sign : first = '-' ∨ isDigit first = true) (fuel : Nat)
    (more : List Char) :
    readValue (fuel + 1) (first :: more)
      = (readNumeral (first :: more)).map fun (numeral, rest) => (.number numeral, rest) := by
  have other : ∀ c ∈ ['n', 't', 'f', '"', '[', '\x7b'], first ≠ c := by
    rintro c member rfl
    obtain rfl | digit := sign
    · exact absurd member (by decide)
    · simp only [List.mem_cons, List.not_mem_nil, or_false] at member
      obtain rfl | rfl | rfl | rfl | rfl | rfl := member <;> exact absurd digit (by decide)
  have plain : isBlank first = false := by
    obtain rfl | digit := sign
    · rfl
    · exact isBlank_of_isDigit digit
  rw [readValue, skipBlank_cons plain]
  split
  · next same => exact absurd (List.cons.inj same).1 (other 'n' (by decide))
  · next same => exact absurd (List.cons.inj same).1 (other 't' (by decide))
  · next same => exact absurd (List.cons.inj same).1 (other 'f' (by decide))
  · next same => exact absurd (List.cons.inj same).1 (other '"' (by decide))
  · next same => exact absurd (List.cons.inj same).1 (other '[' (by decide))
  · next same => exact absurd (List.cons.inj same).1 (other '\x7b' (by decide))
  · rfl

private theorem returns_number {numeral : Numeral} (spelled : numeral.WellFormed) :
    (Json.number numeral).Returns := by
  intro fuel rest enough delimits
  have grows := Numeral.length_lt_write spelled rest
  have read := Numeral.readNumeral_write spelled delimits
  obtain ⟨first, more, starts, sign⟩ := Numeral.write_starts spelled rest
  rw [write] at enough ⊢
  cases fuel with
  | zero => omega
  | succ fuel =>
    rw [starts] at read ⊢
    rw [readValue_numeral (sign.imp And.right And.right), read]
    rfl

private theorem returns_string (text : Option String) : (Json.string text).Returns := by
  intro fuel rest enough _
  have grows := length_lt_writeString text rest
  obtain ⟨inside, starts, read⟩ := readString_write text rest
  rw [write] at enough ⊢
  cases fuel with
  | zero => omega
  | succ fuel =>
    rw [starts, readValue, skipBlank_cons rfl]
    simp only [read, Option.map_some]

private theorem readValue_items {first : Char} (plain : isBlank first = false) (other : first ≠ ']')
    (fuel : Nat) (more : List Char) :
    readValue (fuel + 1) ('[' :: first :: more) = readItems fuel (first :: more) [] := by
  rw [readValue, skipBlank_cons rfl]
  split
  · next same => exact absurd (List.cons.inj same).1 (by decide)
  · next same => exact absurd (List.cons.inj same).1 (by decide)
  · next same => exact absurd (List.cons.inj same).1 (by decide)
  · next same => exact absurd (List.cons.inj same).1 (by decide)
  · next same =>
    obtain ⟨-, rfl⟩ := List.cons.inj same
    rw [skipBlank_cons plain]
    split
    · next closes => exact absurd (List.cons.inj closes).1 other
    · rfl
  · next same => exact absurd (List.cons.inj same).1 (by decide)
  · next bracket _ => exact (bracket _ rfl).elim

private theorem readValue_members (fuel : Nat) (inside : List Char) :
    readValue (fuel + 1) ('\x7b' :: '"' :: inside) = readMembers fuel ('"' :: inside) [] :=
  rfl

/-- The items of an array are read back behind those already read. -/
theorem readItems_write {item : Json} {items : List Json}
    (wellFormed : ∀ other ∈ item :: items, other.WellFormed)
    (returns : ∀ other ∈ item :: items, other.Returns) {fuel : Nat} {rest : List Char}
    (enough : 2 * (item.write (writeItems items rest)).length < fuel + 2 * rest.length)
    (done : List Json) :
    readItems fuel (item.write (writeItems items rest)) done
      = some (.array (done.reverse ++ item :: items), rest) := by
  induction items generalizing item fuel done with
  | nil =>
    have grows := (wellFormed item (.head _)).lengthens (writeItems [] rest)
    have bracket : rest.length < (writeItems [] rest).length := Nat.lt_succ_self _
    cases fuel with
    | zero => omega
    | succ fuel =>
      have read := returns item (.head _) fuel (writeItems [] rest) (by omega) (delimits_writeItems _ _)
      rw [readItems, read, writeItems]
      dsimp only
      rw [skipBlank_cons rfl, List.reverse_cons]
      rfl
  | cons next items ih =>
    have grows := (wellFormed item (.head _)).lengthens (writeItems (next :: items) rest)
    have later := length_lt_writeItems
      (fun other member => (wellFormed other (.tail _ member)).lengthens) rest
    cases fuel with
    | zero => omega
    | succ fuel =>
      have read := returns item (.head _) fuel (writeItems (next :: items) rest) (by omega)
        (delimits_writeItems _ _)
      have comma : (writeItems (next :: items) rest).length
          = (next.write (writeItems items rest)).length + 1 := rfl
      rw [readItems, read, writeItems]
      dsimp only
      rw [skipBlank_cons rfl]
      refine (ih (fun other member => wellFormed other (.tail _ member))
        (fun other member => returns other (.tail _ member)) (by omega) (item :: done)).trans ?_
      rw [List.reverse_cons, List.append_assoc]
      rfl

/-- A key is read back together with its colon. -/
theorem readKey_write (key : Option String) (rest : List Char) :
    readKey (writeString key (':' :: rest)) = some (key, rest) := by
  obtain ⟨inside, starts, read⟩ := readString_write key (':' :: rest)
  rw [starts, readKey, skipBlank_cons rfl]
  simp only [read]
  rw [skipBlank_cons rfl]
  rfl

/-- The members of an object are read back behind those already read. -/
theorem readMembers_write {key : Option String} {value : Json} {members : List (Option String × Json)}
    (wellFormed : ∀ other ∈ (key, value) :: members, other.2.WellFormed)
    (returns : ∀ other ∈ (key, value) :: members, other.2.Returns) {fuel : Nat} {rest : List Char}
    (enough : 2 * (writeString key (':' :: value.write (writeMembers members rest))).length
      < fuel + 2 * rest.length) (done : List (Option String × Json)) :
    readMembers fuel (writeString key (':' :: value.write (writeMembers members rest))) done
      = some (.object (done.reverse ++ (key, value) :: members), rest) := by
  have name := length_lt_writeString key (':' :: value.write (writeMembers members rest))
  rw [List.length_cons] at name
  induction members generalizing key value fuel done with
  | nil =>
    have grows : _ < (value.write (writeMembers [] rest)).length :=
      (wellFormed (key, value) (.head _)).lengthens _
    have brace : rest.length < (writeMembers [] rest).length := Nat.lt_succ_self _
    cases fuel with
    | zero => omega
    | succ fuel =>
      have returned : value.Returns := returns (key, value) (.head _)
      have read := returned fuel (writeMembers [] rest) (by omega) (delimits_writeMembers _ _)
      rw [readMembers, readKey_write]
      dsimp only
      rw [read, writeMembers]
      dsimp only
      rw [skipBlank_cons rfl, List.reverse_cons]
      rfl
  | cons next members ih =>
    obtain ⟨nextKey, nextValue⟩ := next
    have grows : _ < (value.write (writeMembers ((nextKey, nextValue) :: members) rest)).length :=
      (wellFormed (key, value) (.head _)).lengthens _
    have later := length_lt_writeMembers
      (fun other member => (wellFormed other (.tail _ member)).lengthens) rest
    cases fuel with
    | zero => omega
    | succ fuel =>
      have returned : value.Returns := returns (key, value) (.head _)
      have read := returned fuel (writeMembers ((nextKey, nextValue) :: members) rest) (by omega)
        (delimits_writeMembers _ _)
      have comma : (writeMembers ((nextKey, nextValue) :: members) rest).length
          = (writeString nextKey (':' :: nextValue.write (writeMembers members rest))).length + 1 := rfl
      rw [readMembers, readKey_write]
      dsimp only
      rw [read, writeMembers]
      dsimp only
      rw [skipBlank_cons rfl]
      refine (ih (fun other member => wellFormed other (.tail _ member))
        (fun other member => returns other (.tail _ member)) (by omega) ((key, value) :: done)
        (length_lt_writeString nextKey (':' :: nextValue.write (writeMembers members rest)))).trans ?_
      rw [List.reverse_cons, List.append_assoc]
      rfl

/-- Every well-formed tree is read back from its text. -/
theorem WellFormed.returns {json : Json} (wellFormed : json.WellFormed) : json.Returns := by
  induction wellFormed with
  | null =>
    intro fuel rest enough _
    rw [write] at enough ⊢
    cases fuel with
    | zero => simp only [List.length_cons] at enough; omega
    | succ fuel => rfl
  | boolean value =>
    intro fuel rest enough _
    cases value <;> rw [write] at enough ⊢ <;> cases fuel with
    | zero => simp only [List.length_cons] at enough; omega
    | succ fuel => rfl
  | number spelled => exact returns_number spelled
  | string text => exact returns_string text
  | @array items inner ih =>
    intro fuel rest enough _
    cases fuel with
    | zero =>
      have := (WellFormed.array inner).lengthens rest
      omega
    | succ fuel =>
      cases items with
      | nil => rfl
      | cons item items =>
        obtain ⟨first, more, starts, plain, other⟩ :=
          (inner item (.head _)).starts (writeItems items rest)
        rw [write] at enough ⊢
        rw [List.length_cons] at enough
        have read := readItems_write inner ih (show _ < fuel + 2 * rest.length by omega) []
        rw [starts] at read ⊢
        rw [readValue_items plain other]
        exact read
  | @object members inner ih =>
    intro fuel rest enough _
    cases fuel with
    | zero =>
      have := (WellFormed.object inner).lengthens rest
      omega
    | succ fuel =>
      cases members with
      | nil => rfl
      | cons member members =>
        obtain ⟨key, value⟩ := member
        obtain ⟨inside, starts, -⟩ :=
          readString_write key (':' :: value.write (writeMembers members rest))
        rw [write] at enough ⊢
        rw [List.length_cons] at enough
        have read := readMembers_write inner ih (show _ < fuel + 2 * rest.length by omega) []
        rw [starts] at read ⊢
        rw [readValue_members]
        exact read

/-- A text that renders a well-formed tree is parsed to that tree. -/
theorem parse?_render {json : Json} (wellFormed : json.WellFormed) : parse? json.render = some json := by
  have read := wellFormed.returns (2 * (json.write []).length + 2) []
    (by rw [List.length_nil]; omega) (by rintro c ⟨⟩)
  rw [parse?, render, String.toList_ofList, read]
  rfl

end ScopeMachine.Json
