import ScopeMachine.Json.Reader
import ScopeMachine.Json.Writer

set_option autoImplicit false

/-!
# Spelling

Numbers and strings are read back as they were written. The digits of a number end where the text around
it goes on, and a string ends at its closing quote, whatever follows.
-/

namespace ScopeMachine.Json

/-! ## Digits -/

private theorem isDigit_iff {c : Char} : isDigit c = true ↔ 48 ≤ c.toNat ∧ c.toNat ≤ 57 := by
  simp only [isDigit, Bool.and_eq_true, decide_eq_true_eq, Char.le_def, UInt32.le_iff_toNat_le]
  exact .rfl

/-- What may follow a number: nothing, or what separates and closes items and members. -/
def Delimits (rest : List Char) : Prop :=
  ∀ c ∈ rest.head?, c = ',' ∨ c = ']' ∨ c = '\x7d'

/-- The text goes on with something else than a digit. -/
def Ends (rest : List Char) : Prop :=
  ∀ c ∈ rest.head?, isDigit c = false

theorem Delimits.ends {rest : List Char} (delimits : Delimits rest) : Ends rest := by
  intro c first
  obtain rfl | rfl | rfl := delimits c first <;> rfl

private theorem takeDigits_append {digits rest : List Char} (all : ∀ c ∈ digits, isDigit c = true)
    (ends : Ends rest) : takeDigits (digits ++ rest) = (digits, rest) := by
  have none : rest.takeWhile isDigit = [] ∧ rest.dropWhile isDigit = rest := by
    cases rest with
    | nil => exact ⟨rfl, rfl⟩
    | cons c rest =>
      have other := ends c rfl
      simp [other]
  rw [takeDigits, List.takeWhile_append_of_pos all, List.dropWhile_append_of_pos all, none.1, none.2,
    List.append_nil]

namespace Numeral

/-- A run of digits that is not empty. -/
def Run (digits : List Char) : Prop :=
  digits ≠ [] ∧ ∀ c ∈ digits, isDigit c = true

/-- A numeral whose parts are spelled with digits. Only a zero by itself starts with a zero. -/
structure WellFormed (n : Numeral) : Prop where
  whole : n.whole = ['0'] ∨ Run n.whole ∧ n.whole.head? ≠ some '0'
  fraction : ∀ digits ∈ n.fraction, Run digits
  exponent : ∀ part ∈ n.exponent, Run part.2

private theorem readWhole_append {digits rest : List Char}
    (spelled : digits = ['0'] ∨ Run digits ∧ digits.head? ≠ some '0') (ends : Ends rest) :
    readWhole (digits ++ rest) = some (digits, rest) := by
  obtain rfl | ⟨⟨some_, all⟩, other⟩ := spelled
  · rfl
  · have takes := takeDigits_append all ends
    cases digits with
    | nil => exact absurd rfl some_
    | cons first more =>
      have ne : first ≠ '0' := fun same => other (by rw [same]; rfl)
      unfold readWhole
      split
      · next same => exact absurd (List.cons.inj same).1 ne
      · rw [takes]

/-- The part of a number after its fraction. -/
def writeExponent (exponent : Option (Bool × List Char)) (rest : List Char) : List Char :=
  match exponent with
  | none => rest
  | some (false, digits) => 'e' :: (digits ++ rest)
  | some (true, digits) => 'e' :: '-' :: (digits ++ rest)

/-- The part of a number after its whole digits. -/
def writeFraction (fraction : Option (List Char)) (rest : List Char) : List Char :=
  match fraction with
  | none => rest
  | some digits => '.' :: (digits ++ rest)

private theorem write_eq (n : Numeral) (rest : List Char) :
    n.write rest = (if n.negative then ['-'] else [])
      ++ (n.whole ++ writeFraction n.fraction (writeExponent n.exponent rest)) := by
  obtain ⟨negative, whole, fraction, exponent⟩ := n
  cases negative <;> cases fraction <;> obtain _ | ⟨_ | _, _⟩ := exponent <;> rfl

private theorem readExponent_write {exponent : Option (Bool × List Char)} {rest : List Char}
    (runs : ∀ part ∈ exponent, Run part.2) (delimits : Delimits rest) :
    readExponent (writeExponent exponent rest) = some (exponent, rest)
      ∧ Ends (writeExponent exponent rest)
      ∧ (writeExponent exponent rest).head? ≠ some '.' := by
  obtain _ | ⟨negative, digits⟩ := exponent
  · refine ⟨?_, delimits.ends, fun first => ?_⟩
    · change readExponent rest = some (none, rest)
      unfold readExponent
      split
      · exact absurd (delimits 'e' rfl) (by decide)
      · exact absurd (delimits 'E' rfl) (by decide)
      · rfl
    · exact absurd (delimits '.' first) (by decide)
  · obtain ⟨some_, all⟩ := runs _ rfl
    have takes := takeDigits_append all delimits.ends
    cases digits with
    | nil => exact absurd rfl some_
    | cons first more =>
      cases negative with
      | false =>
        have unsigned : readExponentSign (first :: more ++ rest) = (false, first :: more ++ rest) := by
          have digit := all first (.head _)
          rw [isDigit_iff] at digit
          unfold readExponentSign
          split
          · next same =>
            obtain ⟨rfl, -⟩ := List.cons.inj same
            exact absurd digit (by decide)
          · next same =>
            obtain ⟨rfl, -⟩ := List.cons.inj same
            exact absurd digit (by decide)
          · rfl
        refine ⟨?_, by rintro c ⟨⟩; rfl, by simp [writeExponent]⟩
        simp only [writeExponent, readExponent, readExponentDigits, unsigned, takes]
      | true =>
        refine ⟨?_, by rintro c ⟨⟩; rfl, by simp [writeExponent]⟩
        simp only [writeExponent, readExponent, readExponentDigits, readExponentSign, takes]

private theorem readFraction_write {fraction : Option (List Char)} {rest : List Char}
    (runs : ∀ digits ∈ fraction, Run digits) (ends : Ends rest) (point : rest.head? ≠ some '.') :
    readFraction (writeFraction fraction rest) = some (fraction, rest)
      ∧ Ends (writeFraction fraction rest) := by
  cases fraction with
  | none =>
    refine ⟨?_, ends⟩
    change readFraction rest = some (none, rest)
    unfold readFraction
    split
    · exact absurd rfl point
    · rfl
  | some digits =>
    obtain ⟨some_, all⟩ := runs _ rfl
    have takes := takeDigits_append all ends
    refine ⟨?_, by rintro c ⟨⟩; rfl⟩
    cases digits with
    | nil => exact absurd rfl some_
    | cons first more => simp only [writeFraction, readFraction, takes]

theorem write_starts {n : Numeral} (spelled : n.WellFormed) (rest : List Char) :
    ∃ first more, n.write rest = first :: more
      ∧ (n.negative = true ∧ first = '-' ∨ n.negative = false ∧ isDigit first = true) := by
  obtain ⟨first, digits, whole, digit⟩ : ∃ first digits, n.whole = first :: digits
      ∧ isDigit first = true := by
    obtain same | ⟨⟨some_, all⟩, -⟩ := spelled.whole
    · exact ⟨'0', [], same, rfl⟩
    · obtain ⟨first, digits, same⟩ := List.exists_cons_of_ne_nil some_
      exact ⟨first, digits, same, all first (same ▸ .head _)⟩
  rw [write_eq, whole]
  cases n.negative with
  | true => exact ⟨_, _, rfl, .inl ⟨rfl, rfl⟩⟩
  | false => exact ⟨_, _, rfl, .inr ⟨rfl, digit⟩⟩

theorem length_lt_write {n : Numeral} (spelled : n.WellFormed) (rest : List Char) :
    rest.length < (n.write rest).length := by
  have some_ : 0 < n.whole.length := by
    obtain same | ⟨⟨some_, -⟩, -⟩ := spelled.whole
    · simp [same]
    · exact List.length_pos_iff.mpr some_
  have exponent : rest.length ≤ (writeExponent n.exponent rest).length := by
    obtain _ | ⟨_ | _, digits⟩ := n.exponent <;>
      simp only [writeExponent, List.length_cons, List.length_append] <;> omega
  have fraction (tail : List Char) : tail.length ≤ (writeFraction n.fraction tail).length := by
    obtain _ | digits := n.fraction <;>
      simp only [writeFraction, List.length_cons, List.length_append] <;> omega
  rw [write_eq, List.length_append, List.length_append]
  have := fraction (writeExponent n.exponent rest)
  omega

/-- A number is read back. -/
theorem readNumeral_write {n : Numeral} (spelled : n.WellFormed) {rest : List Char}
    (delimits : Delimits rest) : readNumeral (n.write rest) = some (n, rest) := by
  obtain ⟨exponent, free, point⟩ := readExponent_write spelled.exponent delimits
  obtain ⟨fraction, clear⟩ := readFraction_write spelled.fraction free point
  have whole := readWhole_append spelled.whole clear
  have unsigned : readUnsigned n.negative
      (n.whole ++ writeFraction n.fraction (writeExponent n.exponent rest)) = some (n, rest) := by
    simp [readUnsigned, whole, fraction, exponent]
  obtain ⟨first, more, starts, sign⟩ := write_starts spelled rest
  obtain ⟨negative, rfl⟩ | ⟨plain, digit⟩ := sign
  · have body : more = n.whole ++ writeFraction n.fraction (writeExponent n.exponent rest) := by
      rw [write_eq, negative] at starts
      exact (List.cons.inj starts).2.symm
    rw [negative, ← body] at unsigned
    rw [starts]
    exact unsigned
  · rw [plain] at unsigned
    have body : n.write rest = n.whole ++ writeFraction n.fraction (writeExponent n.exponent rest) := by
      rw [write_eq, plain]
      rfl
    rw [body] at starts ⊢
    unfold readNumeral
    split
    · next same =>
      obtain ⟨rfl, -⟩ := List.cons.inj (starts.symm.trans same)
      exact absurd digit (by decide)
    · exact unsigned

/-! ## Usual spellings -/

private theorem isDigit_eq (c : Char) : Json.isDigit c = c.isDigit := by
  rw [Bool.eq_iff_iff, isDigit_iff]
  simp only [Char.isDigit, ge_iff_le, Bool.and_eq_true, decide_eq_true_eq, UInt32.le_iff_toNat_le]
  exact .rfl

private theorem valueOf_toDigits (n : Nat) : valueOf (Nat.toDigits 10 n) = n := by
  have same : (fun value digit => value * 10 + digitValue digit)
      = fun value digit => 10 * value + (digit.toNat - '0'.toNat) := by
    funext value digit
    rw [Nat.mul_comm]
    rfl
  rw [valueOf, same, ← Nat.ofDigitChars_eq_foldl]
  exact Nat.ofDigitChars_ten_toDigits

private theorem head?_toDigits_ne_zero {n : Nat} (pos : 0 < n) : (Nat.toDigits 10 n).head? ≠ some '0' := by
  induction n using Nat.strongRecOn with
  | ind n ih =>
    rw [Nat.toDigits_eq_if (by decide)]
    by_cases small : n < 10
    · have digit : ∀ k < 10, 0 < k → [Nat.digitChar k].head? ≠ some '0' := by decide
      rw [if_pos small]
      exact digit n small pos
    · have before := ih (n / 10) (by omega) (by omega)
      rw [if_neg small]
      cases digits : Nat.toDigits 10 (n / 10) with
      | nil => exact absurd digits Nat.toDigits_ne_nil
      | cons first more => rwa [digits] at before

/-- The usual digits of a natural number are the whole part of a numeral. -/
theorem whole_toDigits (n : Nat) : Nat.toDigits 10 n = ['0']
    ∨ Run (Nat.toDigits 10 n) ∧ (Nat.toDigits 10 n).head? ≠ some '0' := by
  obtain rfl | pos := Nat.eq_zero_or_pos n
  · exact .inl rfl
  · refine .inr ⟨⟨Nat.toDigits_ne_nil, fun c member => ?_⟩, head?_toDigits_ne_zero pos⟩
    rw [isDigit_eq]
    exact Nat.isDigit_of_mem_toDigits (by decide) (by decide) member

theorem wellFormed_ofNat (n : Nat) : (ofNat n).WellFormed :=
  ⟨whole_toDigits n, by rintro _ ⟨⟩, by rintro _ ⟨⟩⟩

theorem wellFormed_ofInt (n : Int) : (ofInt n).WellFormed :=
  ⟨whole_toDigits n.natAbs, by rintro _ ⟨⟩, by rintro _ ⟨⟩⟩

theorem toNat?_ofNat (n : Nat) : (ofNat n).toNat? = some n := by
  change some (valueOf (Nat.toDigits 10 n)) = some n
  rw [valueOf_toDigits]

theorem toInt?_ofInt (n : Int) : (ofInt n).toInt? = some n := by
  have value : valueOf (ofInt n).whole = n.natAbs := valueOf_toDigits n.natAbs
  have whole : (ofInt n).isWhole = true := rfl
  by_cases negative : n < 0
  · have sign : (ofInt n).negative = true := decide_eq_true negative
    rw [toInt?, if_pos whole, value, sign]
    simp only [↓reduceIte]
    rw [if_neg (by omega)]
    congr 1
    omega
  · have sign : (ofInt n).negative = false := decide_eq_false negative
    rw [toInt?, if_pos whole, value, sign]
    simp only [Bool.false_eq_true, ↓reduceIte]
    congr 1
    omega

end Numeral

/-! ## Strings -/

/-- A text that is read so far, with no half of a pair waiting. -/
def Partial.ofReversed (reversed : List Char) : Partial :=
  ⟨some reversed, none⟩

private theorem readString_control {code : Nat} (control : code < 0x20) (reversed rest : List Char) :
    readString (.ofReversed reversed)
        ('\\' :: 'u' :: '0' :: '0' :: hexDigit (code / 16) :: hexDigit (code % 16) :: rest)
      = readString (.ofReversed (Char.ofNat code :: reversed)) rest := by
  have unit : codeUnit? '0' '0' (hexDigit (code / 16)) (hexDigit (code % 16)) = some code := by
    decide +revert
  have plain : (Partial.ofReversed reversed).addUnit code = .ofReversed (Char.ofNat code :: reversed) := by
    rw [Partial.addUnit, if_neg (by simp; omega), if_neg (by simp; omega)]
    rfl
  rw [readString, unit]
  dsimp only
  rw [plain]

private theorem readString_plain {c : Char} (quote : c ≠ '"') (backslash : c ≠ '\\') (printed : ¬ c.toNat < 0x20)
    (reversed rest : List Char) :
    readString (.ofReversed reversed) (c :: rest) = readString (.ofReversed (c :: reversed)) rest := by
  rw [readString]
  · rw [if_neg (by simp [printed, backslash])]
    rfl
  · exact quote
  · rintro _ _ _ _ _ same
    exact absurd same backslash
  · rintro _ _ same
    exact absurd same backslash

/-- One character of a string is read back. -/
theorem readString_escape (c : Char) (reversed rest : List Char) :
    readString (.ofReversed reversed) (escapeChar c ++ rest)
      = readString (.ofReversed (c :: reversed)) rest := by
  unfold escapeChar
  split
  · rfl
  · rfl
  · rfl
  · rfl
  · rfl
  · rfl
  · rfl
  · next quote backslash _ _ _ _ _ =>
    split
    · next control =>
      have read := readString_control control reversed rest
      rw [Char.ofNat_toNat] at read
      exact read
    · next printed =>
      exact readString_plain quote backslash printed reversed rest

/-- The inside of a string is read back, up to its closing quote. -/
theorem readString_escapes (text reversed rest : List Char) :
    readString (.ofReversed reversed)
        (text.foldr (fun c tail => escapeChar c ++ tail) ('"' :: rest))
      = some (some (String.ofList (reversed.reverse ++ text)), rest) := by
  induction text generalizing reversed with
  | nil => simp [readString, Partial.finish, Partial.ofReversed]
  | cons c text ih =>
    rw [List.foldr_cons, readString_escape, ih]
    simp

/-- A string is read back, and a lone escape as one that denotes no text. -/
theorem readString_write (text : Option String) (rest : List Char) :
    ∃ inside, writeString text rest = '"' :: inside ∧ readString .start inside = some (text, rest) := by
  cases text with
  | none => exact ⟨_, rfl, rfl⟩
  | some value =>
    refine ⟨_, rfl, ?_⟩
    have read := readString_escapes value.toList [] rest
    rwa [List.reverse_nil, List.nil_append, String.ofList_toList] at read

theorem length_lt_writeString (text : Option String) (rest : List Char) :
    rest.length < (writeString text rest).length := by
  cases text with
  | none => simp only [writeString, List.length_cons]; omega
  | some value =>
    have grows (text : List Char) :
        rest.length < (text.foldr (fun c tail => escapeChar c ++ tail) ('"' :: rest)).length := by
      induction text with
      | nil => simp
      | cons c text ih =>
        rw [List.foldr_cons, List.length_append]
        omega
    exact Nat.lt_succ_of_lt (grows value.toList)

end ScopeMachine.Json
