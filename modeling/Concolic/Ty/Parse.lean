import Concolic.Error

/-!
# Reading types

`ofDescriptor` reads the signature spelling of a type and nothing else. `parse` reads what a person
or a tool may write for a type: a keyword, a descriptor, a class name with dots or slashes, each
followed by any number of `[]`, with blanks around.
-/

namespace Concolic.Ty

/-- Reads one descriptor and returns what follows it. -/
def readDescriptor : List Char → Result (Ty × List Char)
  | [] => malformed .emptyDescriptor
  | c :: rest =>
    match c with
    | 'V' => .ok (.void, rest)
    | 'Z' => .ok (.bool, rest)
    | 'B' => .ok (.byte, rest)
    | 'C' => .ok (.char, rest)
    | 'S' => .ok (.short, rest)
    | 'I' => .ok (.int, rest)
    | 'J' => .ok (.long, rest)
    | 'F' => .ok (.float, rest)
    | 'D' => .ok (.double, rest)
    | '[' => do
      let (element, rest) ← readDescriptor rest
      .ok (.array element, rest)
    | 'L' =>
      let (name, after) := rest.span (· != ';')
      let whole := String.ofList (c :: rest)
      match name, after with
      | _, [] => malformed (.unterminatedClass whole)
      | [], _ :: _ => malformed (.emptyClassName whole)
      | _ :: _, _ :: after => .ok (ofClassName (String.ofList name), after)
    | c => malformed (.unknownDescriptor c (String.ofList (c :: rest)))

/-- The type with the given descriptor. -/
def ofDescriptor (descriptor : String) : Result Ty := do
  let (t, rest) ← readDescriptor descriptor.toList
  match rest with
  | [] => .ok t
  | rest => malformed (.trailingCharacters (String.ofList rest) descriptor)

/-- The type that a keyword stands for. -/
def ofKeyword? : String → Option Ty
  | "void" => some .void
  | "boolean" | "bool" => some .bool
  | "byte" => some .byte
  | "char" => some .char
  | "short" => some .short
  | "int" => some .int
  | "long" => some .long
  | "float" => some .float
  | "double" => some .double
  | "null" => some .null
  | _ => none

/-- The text before a final `[]`. -/
def stripBrackets? (cs : List Char) : Option (List Char) :=
  match cs.reverse with
  | ']' :: '[' :: front => some front.reverse
  | _ => none

/-- A spelling that only a descriptor can have: an array descriptor, a class between `L` and `;`, or
a single byte. -/
def looksLikeDescriptor (cs : List Char) : Bool :=
  cs.head? == some '[' || (cs.head? == some 'L' && cs.getLast? == some ';') ||
    (String.ofList cs).utf8ByteSize == 1

/-- Reads a type without brackets or blanks at its ends. -/
def parseSimple (cs : List Char) : Result Ty :=
  let name := String.ofList cs
  match ofKeyword? name with
  | some t => .ok t
  | none =>
    if looksLikeDescriptor cs then ofDescriptor name
    else if cs.any fun c => Text.isBlank c || c == ';' || c == '[' then
      malformed (.invalidTypeName name)
    else .ok (ofClassName name)

theorem length_trimChars_le (cs : List Char) : (Text.trimChars cs).length ≤ cs.length := by
  simp only [Text.trimChars, Text.trimLeft, List.length_reverse]
  refine Nat.le_trans (List.dropWhile_sublist _).length_le ?_
  simpa using (List.dropWhile_sublist _).length_le

theorem length_of_stripBrackets? {cs front : List Char} (h : stripBrackets? cs = some front) :
    front.length + 2 = cs.length := by
  unfold stripBrackets? at h
  split at h
  · next r hr =>
    have := congrArg List.length hr
    simp only [List.length_reverse, List.length_cons] at this
    cases h
    simp [this]
  · simp at h

theorem length_lt_of_stripBrackets? {cs front : List Char}
    (h : stripBrackets? (Text.trimChars cs) = some front) : front.length < cs.length := by
  have := length_of_stripBrackets? h
  have := length_trimChars_le cs
  omega

/-- Reads a type: blanks at the ends are dropped, then each final `[]` makes an array. -/
def parseChars (cs : List Char) : Result Ty :=
  if (Text.trimChars cs).isEmpty then malformed .emptyTypeName
  else
    match h : stripBrackets? (Text.trimChars cs) with
    | some front =>
      have := length_lt_of_stripBrackets? h
      (parseChars front).map Ty.array
    | none => parseSimple (Text.trimChars cs)
termination_by cs.length

/-- The type with the given source spelling or descriptor. -/
def parse (s : String) : Result Ty := parseChars s.toList

end Concolic.Ty
