import Concolic.Json.Number

/-!
# Reading JSON

The strict grammar: blanks are space, tab, line feed and carriage return; text has no bare control
characters; nothing follows the document. Each function reads from the front of a text and hands out
the rest with the proof that it is shorter.

`scan?` reads whatever has the form of a document, `read?` only what also has a value. A text with
half of a surrogate pair has the form alone; below, it is a text of `none`.
-/

namespace Concolic.Json

/-- A shorter text. -/
abbrev Rest (cs : List Char) := { rest : List Char // rest.length < cs.length }

/-- The rest of a shorter text. -/
def Rest.weaken {cs ds : List Char} (r : Rest ds) (h : ds.length ≤ cs.length) : Rest cs :=
  ⟨r.1, Nat.lt_of_lt_of_le r.2 h⟩

def isSpace (c : Char) : Bool := c == ' ' || c == '\n' || c == '\r' || c == '\t'

/-- Skips blanks. -/
def skip (cs : List Char) : List Char := cs.dropWhile isSpace

theorem length_skip_le (cs : List Char) : (skip cs).length ≤ cs.length :=
  (List.dropWhile_sublist _).length_le

/-! ## Text -/

def hexDigit? (c : Char) : Option Nat :=
  if c.isDigit then some (c.toNat - '0'.toNat)
  else if 'a' ≤ c ∧ c ≤ 'f' then some (c.toNat - 'a'.toNat + 10)
  else if 'A' ≤ c ∧ c ≤ 'F' then some (c.toNat - 'A'.toNat + 10)
  else none

/-- The number of four hexadecimal digits. -/
def hex4? (a b c d : Char) : Option Nat := do
  some ((((← hexDigit? a) * 16 + (← hexDigit? b)) * 16 + (← hexDigit? c)) * 16 + (← hexDigit? d))

/-- The character of an escape of one letter. -/
def shortEscape? : Char → Option Char
  | '"' => some '"'
  | '\\' => some '\\'
  | '/' => some '/'
  | 'b' => some '\x08'
  | 'f' => some '\x0c'
  | 'n' => some '\n'
  | 'r' => some '\r'
  | 't' => some '\t'
  | _ => none

def isHighHalf (n : Nat) : Bool := 0xD800 ≤ n && n < 0xDC00

def isLowHalf (n : Nat) : Bool := 0xDC00 ≤ n && n < 0xE000

/-- The character of a surrogate pair. -/
def surrogates (high low : Nat) : Char :=
  Char.ofNat (0x10000 + (high - 0xD800) * 0x400 + (low - 0xDC00))

/-- Reads the escape of the second half of a surrogate pair. -/
def readLowHalf : (cs : List Char) → Option (Nat × Rest cs)
  | '\\' :: 'u' :: a :: b :: c :: d :: rest => do
    let n ← hex4? a b c d
    if isLowHalf n then some (n, ⟨rest, by simp only [List.length_cons]; omega⟩) else none
  | _ => none

/-- Reads the character of an escape after the backslash. -/
def readEscape : (cs : List Char) → Option (Option Char × Rest cs)
  | 'u' :: a :: b :: c :: d :: rest => do
    let n ← hex4? a b c d
    if isHighHalf n then
      match readLowHalf rest with
      | some (low, after) =>
        some (some (surrogates n low), after.weaken (by simp only [List.length_cons]; omega))
      | none => some (none, ⟨rest, by simp only [List.length_cons]; omega⟩)
    else
      let ch := if isLowHalf n then none else some (Char.ofNat n)
      some (ch, ⟨rest, by simp only [List.length_cons]; omega⟩)
  | c :: rest => do
    let ch ← shortEscape? c
    some (some ch, ⟨rest, by simp⟩)
  | [] => none

/-- Adds a character to what was read so far, the last character first. -/
def pushChar (seen : Option (List Char)) (c : Option Char) : Option (List Char) := do
  let c ← c
  let cs ← seen
  some (c :: cs)

/-- Reads text after the opening quote; `seen` is what was read so far, the last character first. -/
def readString (seen : Option (List Char)) : (cs : List Char) → Option (Option String × Rest cs)
  | [] => none
  | '"' :: rest => some (seen.map fun cs => String.ofList cs.reverse, ⟨rest, by simp⟩)
  | '\\' :: cs => do
    let (c, after) ← readEscape cs
    have : after.1.length < cs.length := after.2
    let (s, rest) ← readString (pushChar seen c) after.1
    some (s, rest.weaken (by simp only [List.length_cons]; omega))
  | c :: cs =>
    if c.toNat < 0x20 then none
    else do
      let (s, rest) ← readString (pushChar seen (some c)) cs
      some (s, rest.weaken (by simp))
termination_by cs => cs.length

/-! ## Documents -/

def isNumberChar (c : Char) : Bool :=
  c.isDigit || c == '-' || c == '+' || c == '.' || c == 'e' || c == 'E'

/-- A text, if all of it is one. -/
def ofText : Option String → Json
  | some s => .str s
  | none => .valueless

/-- A field, if its name is a text. -/
def namedField : Option String × Json → Option (String × Json)
  | (some name, j) => some (name, j)
  | (none, _) => none

/-- An object, if all names of its fields are texts. -/
def ofNamed (fields : List (Option String × Json)) : Json :=
  match fields.mapM namedField with
  | some fields => .obj fields
  | none => .valueless

/-- Reads a number or a word. -/
def readScalar : (cs : List Char) → Option (Json × Rest cs)
  | 'n' :: 'u' :: 'l' :: 'l' :: rest =>
    some (.null, ⟨rest, by simp only [List.length_cons]; omega⟩)
  | 't' :: 'r' :: 'u' :: 'e' :: rest =>
    some (.bool true, ⟨rest, by simp only [List.length_cons]; omega⟩)
  | 'f' :: 'a' :: 'l' :: 's' :: 'e' :: rest =>
    some (.bool false, ⟨rest, by simp only [List.length_cons]; omega⟩)
  | c :: cs =>
    if isNumberChar c then do
      let j ← readNumber (c :: cs.takeWhile isNumberChar)
      some (j, ⟨cs.dropWhile isNumberChar, by
        have := (List.dropWhile_sublist isNumberChar (l := cs)).length_le
        simp only [List.length_cons]
        omega⟩)
    else none
  | [] => none

mutual

/-- Reads a document that starts without a blank. -/
def readHere : (cs : List Char) → Option (Json × Rest cs)
  | '"' :: cs => do
    let (s, rest) ← readString (some []) cs
    some (ofText s, rest.weaken (by simp))
  | '[' :: cs => do
    let (js, rest) ← readElements cs true
    some (.arr js, rest.weaken (by simp))
  | '\x7b' :: cs => do
    let (fields, rest) ← readFields cs true
    some (ofNamed fields, rest.weaken (by simp))
  | cs => readScalar cs
termination_by cs => 3 * cs.length

/-- Reads a document after blanks. -/
def readValue (cs : List Char) : Option (Json × Rest cs) := do
  have := length_skip_le cs
  let (j, rest) ← readHere (skip cs)
  some (j, rest.weaken this)
termination_by 3 * cs.length + 1

/-- Reads the elements of an array up to its end; it may end at once only before the first. -/
def readElements (cs : List Char) (first : Bool) : Option (List Json × Rest cs) :=
  match first, h : skip cs with
  | true, ']' :: rest =>
    some ([], ⟨rest, by
      have := length_skip_le cs
      simp only [h, List.length_cons] at this
      omega⟩)
  | _, _ => do
    let (j, after) ← readValue cs
    have := length_skip_le after.1
    have := after.2
    match hs : skip after.1 with
    | ',' :: next =>
      have : next.length < cs.length := by simp only [hs, List.length_cons] at *; omega
      let (js, rest) ← readElements next false
      some (j :: js, rest.weaken (by omega))
    | ']' :: rest => some ([j], ⟨rest, by simp only [hs, List.length_cons] at *; omega⟩)
    | _ => none
termination_by 3 * cs.length + 2

/-- Reads the fields of an object up to its end; it may end at once only before the first. -/
def readFields (cs : List Char) (first : Bool) :
    Option (List (Option String × Json) × Rest cs) :=
  have := length_skip_le cs
  match first, h : skip cs with
  | true, '\x7d' :: rest => some ([], ⟨rest, by simp only [h, List.length_cons] at *; omega⟩)
  | _, '"' :: inner => do
    let (name, after) ← readString (some []) inner
    have := after.2
    have := length_skip_le after.1
    match hc : skip after.1 with
    | ':' :: value =>
      have : value.length < cs.length := by simp only [h, hc, List.length_cons] at *; omega
      let (j, after) ← readValue value
      have := length_skip_le after.1
      have := after.2
      match hs : skip after.1 with
      | ',' :: next =>
        have : next.length < cs.length := by simp only [hs, List.length_cons] at *; omega
        let (fields, rest) ← readFields next false
        some ((name, j) :: fields, rest.weaken (by omega))
      | '\x7d' :: rest =>
        some ([(name, j)], ⟨rest, by simp only [hs, List.length_cons] at *; omega⟩)
      | _ => none
    | _ => none
  | _, _ => none
termination_by 3 * cs.length + 2

end

/-- Reads a text that has the form of one document. -/
def scan? (s : String) : Option Json := do
  let (j, rest) ← readValue s.toList
  if (skip rest.1).isEmpty then some j else none

/-- Reads a text that is one document, with every number in double precision. -/
def read? (s : String) : Option Json := (scan? s).bind settle

end Concolic.Json
