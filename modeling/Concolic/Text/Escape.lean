import Concolic.Text.Blank
import Concolic.Text.Hidden

/-!
# Escaped and quoted text

Two ways to write text that may hold any character.

* `escape` keeps printable ASCII and writes everything else as an escape. It is how the value of a
  text or character literal is shown.
* `quote` also keeps every character that has a glyph. It is how names and text stand inside error
  messages.

Both write tab, carriage return, line feed, backslash and the quotes of their context by a
backslash and a letter, and any other escape as `\u` with the code point in braces.
-/

namespace Concolic.Text

/-- The hexadecimal digits of a number, in lower case, padded with zeros to at least `width`. -/
def hexDigits (width n : Nat) : List Char :=
  let digits := Nat.toDigits 16 n
  List.replicate (width - digits.length) '0' ++ digits

/-- The escape of a code point, with at least `width` digits. -/
def codePointEscape (width n : Nat) : List Char :=
  "\\u\x7b".toList ++ hexDigits width n ++ "\x7d".toList

/-- Printable ASCII: the space up to the tilde. -/
def isPlain (c : Char) : Bool := 0x20 ≤ c.toNat && c.toNat ≤ 0x7E

def escapeChar (c : Char) : List Char :=
  match c with
  | '\t' => ['\\', 't']
  | '\r' => ['\\', 'r']
  | '\n' => ['\\', 'n']
  | '\'' => ['\\', '\'']
  | '"' => ['\\', '"']
  | '\\' => ['\\', '\\']
  | c => if isPlain c then [c] else codePointEscape 0 c.toNat

def escapeChars (cs : List Char) : List Char := cs.flatMap escapeChar

def escape (s : String) : String := String.ofList (escapeChars s.toList)

/-- A UTF-16 unit between single quotes; a lone half of a surrogate pair is no character and is
always written as an escape. -/
def quoteUnit (unit : UInt16) : String :=
  let n := unit.toNat
  let body := if 0xD800 ≤ n && n ≤ 0xDFFF then codePointEscape 4 n else escapeChar (Char.ofNat n)
  String.ofList ('\'' :: body ++ ['\''])

/-- A reader can see the character where it stands. -/
def isVisible (c : Char) : Bool :=
  if c.toNat < 0x7F then 0x20 ≤ c.toNat else !inRanges hiddenRanges c.toNat

def quotedChar (c : Char) : List Char :=
  match c with
  | '\x00' => ['\\', '0']
  | '\t' => ['\\', 't']
  | '\r' => ['\\', 'r']
  | '\n' => ['\\', 'n']
  | '"' => ['\\', '"']
  | '\\' => ['\\', '\\']
  | c => if isVisible c then [c] else codePointEscape 0 c.toNat

/-- The text between double quotes. -/
def quote (s : String) : String :=
  String.ofList ('"' :: s.toList.flatMap quotedChar ++ ['"'])

end Concolic.Text
