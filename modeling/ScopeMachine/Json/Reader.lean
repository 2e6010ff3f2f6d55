import ScopeMachine.Json.Basic

set_option autoImplicit false

/-!
# Reading JSON

A strict reader: no comments, no trailing commas, no leading zeros, no raw control characters in
strings, and nothing but blanks around the one value. Nesting is not limited here; what a tree
means, and how deep it may be, is decided by its decoder.
-/

namespace ScopeMachine.Json

/-- The four blanks that may stand between tokens. -/
def isBlank (c : Char) : Bool :=
  c == ' ' || c == '\n' || c == '\t' || c == '\r'

/-- The text from its first character that is not blank. -/
def skipBlank (cs : List Char) : List Char :=
  cs.dropWhile isBlank

/-! ## Numbers -/

/-- A decimal digit; only the ten of ASCII count. -/
def isDigit (c : Char) : Bool :=
  '0' ≤ c && c ≤ '9'

/-- The longest run of digits and what follows it. -/
def takeDigits (cs : List Char) : List Char × List Char :=
  (cs.takeWhile isDigit, cs.dropWhile isDigit)

/-- The digits in front of a fraction. A zero stands alone. -/
def readWhole : List Char → Option (List Char × List Char)
  | '0' :: rest => some (['0'], rest)
  | cs =>
    match takeDigits cs with
    | ([], _) => none
    | result => some result

/-- A fraction, if a point follows; then it has at least one digit. -/
def readFraction : List Char → Option (Option (List Char) × List Char)
  | '.' :: rest =>
    match takeDigits rest with
    | ([], _) => none
    | (digits, rest) => some (some digits, rest)
  | cs => some (none, cs)

/-- The sign in front of an exponent's digits, true for negative. -/
def readExponentSign : List Char → Bool × List Char
  | '-' :: rest => (true, rest)
  | '+' :: rest => (false, rest)
  | cs => (false, cs)

def readExponentDigits (cs : List Char) : Option (Option (Bool × List Char) × List Char) :=
  let (negative, rest) := readExponentSign cs
  match takeDigits rest with
  | ([], _) => none
  | (digits, rest) => some (some (negative, digits), rest)

def readExponent : List Char → Option (Option (Bool × List Char) × List Char)
  | 'e' :: rest => readExponentDigits rest
  | 'E' :: rest => readExponentDigits rest
  | cs => some (none, cs)

/-- The part of a number after its sign. -/
def readUnsigned (negative : Bool) (cs : List Char) : Option (Numeral × List Char) := do
  let (whole, rest) ← readWhole cs
  let (fraction, rest) ← readFraction rest
  let (exponent, rest) ← readExponent rest
  some ({ negative, whole, fraction, exponent }, rest)

def readNumeral : List Char → Option (Numeral × List Char)
  | '-' :: rest => readUnsigned true rest
  | cs => readUnsigned false cs

/-! ## Strings -/

/-- The value of a hexadecimal digit of either case. -/
def hexValue? (c : Char) : Option Nat :=
  if '0' ≤ c && c ≤ '9' then some (c.toNat - '0'.toNat)
  else if 'a' ≤ c && c ≤ 'f' then some (c.toNat - 'a'.toNat + 10)
  else if 'A' ≤ c && c ≤ 'F' then some (c.toNat - 'A'.toNat + 10)
  else none

/-- The code unit that four hexadecimal digits name. -/
def codeUnit? (a b c d : Char) : Option Nat := do
  some ((((← hexValue? a) * 16 + (← hexValue? b)) * 16 + (← hexValue? c)) * 16 + (← hexValue? d))

/-- The character of a one-letter escape. -/
def shortEscape? : Char → Option Char
  | '"' => some '"'
  | '\\' => some '\\'
  | '/' => some '/'
  | 'b' => some '\x08'
  | 'f' => some '\x0c'
  | 'n' => some '\n'
  | 'r' => some '\r'
  | 't' => some '\t'
  | _ => none

/-- The text read so far: its characters, last first, or nothing once half of a surrogate pair
stood alone; and the first half of a pair that still waits for the second. -/
structure Partial where
  reversed : Option (List Char)
  waiting : Option Nat

namespace Partial

def start : Partial := ⟨some [], none⟩

/-- Adds a character. A waiting half is left alone by it. -/
def addChar (p : Partial) (c : Char) : Partial :=
  match p.waiting with
  | none => ⟨p.reversed.map (c :: ·), none⟩
  | some _ => ⟨none, none⟩

/-- Adds an escaped code unit. A first half waits, a second half completes the pair. -/
def addUnit (p : Partial) (unit : Nat) : Partial :=
  if 0xd800 ≤ unit && unit < 0xdc00 then
    match p.waiting with
    | none => ⟨p.reversed, some unit⟩
    | some _ => ⟨none, some unit⟩
  else if 0xdc00 ≤ unit && unit < 0xe000 then
    match p.waiting with
    | none => ⟨none, none⟩
    | some first =>
      let code := 0x10000 + (first - 0xd800) * 0x400 + (unit - 0xdc00)
      ⟨p.reversed.map (Char.ofNat code :: ·), none⟩
  else p.addChar (Char.ofNat unit)

/-- The finished text, if every pair is complete. -/
def finish (p : Partial) : Option String :=
  match p.waiting with
  | none => p.reversed.map fun cs => String.ofList cs.reverse
  | some _ => none

end Partial

/-- The inside of a string, up to and including its closing quote. -/
def readString (p : Partial) : List Char → Option (Option String × List Char)
  | [] => none
  | '"' :: rest => some (p.finish, rest)
  | '\\' :: 'u' :: a :: b :: c :: d :: rest =>
    match codeUnit? a b c d with
    | some unit => readString (p.addUnit unit) rest
    | none => none
  | '\\' :: letter :: rest =>
    match shortEscape? letter with
    | some char => readString (p.addChar char) rest
    | none => none
  | char :: rest =>
    if char.toNat < 0x20 || char == '\\' then none else readString (p.addChar char) rest

/-- The key of a member, with the colon after it. -/
def readKey (cs : List Char) : Option (Option String × List Char) :=
  match skipBlank cs with
  | '"' :: rest =>
    match readString .start rest with
    | some (key, rest) =>
      match skipBlank rest with
      | ':' :: rest => some (key, rest)
      | _ => none
    | none => none
  | _ => none

/-! ## Values -/

mutual

/-- A value. The first argument bounds the number of nested calls. -/
def readValue : Nat → List Char → Option (Json × List Char)
  | 0, _ => none
  | fuel + 1, cs =>
    match skipBlank cs with
    | 'n' :: 'u' :: 'l' :: 'l' :: rest => some (.null, rest)
    | 't' :: 'r' :: 'u' :: 'e' :: rest => some (.boolean true, rest)
    | 'f' :: 'a' :: 'l' :: 's' :: 'e' :: rest => some (.boolean false, rest)
    | '"' :: rest => (readString .start rest).map fun (text, rest) => (.string text, rest)
    | '[' :: rest =>
      match skipBlank rest with
      | ']' :: rest => some (.array [], rest)
      | _ => readItems fuel rest []
    | '\x7b' :: rest =>
      match skipBlank rest with
      | '\x7d' :: rest => some (.object [], rest)
      | _ => readMembers fuel rest []
    | cs => (readNumeral cs).map fun (numeral, rest) => (.number numeral, rest)

/-- The items of an array after those already read, last first, and its closing bracket. -/
def readItems : Nat → List Char → List Json → Option (Json × List Char)
  | 0, _, _ => none
  | fuel + 1, cs, items =>
    match readValue fuel cs with
    | none => none
    | some (item, rest) =>
      match skipBlank rest with
      | ',' :: rest => readItems fuel rest (item :: items)
      | ']' :: rest => some (.array (item :: items).reverse, rest)
      | _ => none

/-- The members of an object after those already read, last first, and its closing brace. -/
def readMembers :
    Nat → List Char → List (Option String × Json) → Option (Json × List Char)
  | 0, _, _ => none
  | fuel + 1, cs, members =>
    match readKey cs with
    | none => none
    | some (key, rest) =>
      match readValue fuel rest with
      | none => none
      | some (value, rest) =>
        match skipBlank rest with
        | ',' :: rest => readMembers fuel rest ((key, value) :: members)
        | '\x7d' :: rest => some (.object ((key, value) :: members).reverse, rest)
        | _ => none

end

/-- The tree of a text that is one value between blanks. Every call consumes a character or is
followed by one that does, so twice the length bounds the calls. -/
def parse? (text : String) : Option Json :=
  let cs := text.toList
  match readValue (2 * cs.length + 2) cs with
  | some (json, rest) => if (skipBlank rest).isEmpty then some json else none
  | none => none

end ScopeMachine.Json
