import Concolic.Json.Basic

/-!
# Reading from documents

The leaves and the parts of a document. Each part comes with the proof that it is smaller, so that
what reads a document can follow its nesting.

A number with a fraction or an exponent is read as the nearest one of the format (`double?`,
`single?`). This is more than common readers promise, which trade the last place for speed and can
miss the nearest number by one: `51.248178375505404` is such a text. What is said of documents that
are written and read back supposes a reader that does not.

A record is written as an object of its fields, a pair as an array, and an alternative as its name,
or as an object with its name as the only field and what it carries as the value. `Leeway` says what
a reader accepts beside these forms.
-/

namespace Concolic.Json

/-! ## Leaves -/

def bool? : Json → Option Bool
  | .bool b => some b
  | _ => none

def str? : Json → Option String
  | .str s => some s
  | _ => none

/-- A whole number in a range, the upper end excluded. -/
def intIn? (least most : Int) : Json → Option Int
  | .int n => if least ≤ n ∧ n < most then some n else none
  | _ => none

/-- A natural number of at most the given number of bits. -/
def nat? (bits : Nat) (j : Json) : Option Nat := (j.intIn? 0 (Nat.pow 2 bits)).map Int.toNat

/-- A whole number in two's complement of the given number of bits. -/
def signed? (bits : Nat) (j : Json) : Option Int :=
  j.intIn? (-(Nat.pow 2 (bits - 1) : Int)) (Nat.pow 2 (bits - 1))

/-- A number as the nearest double. -/
def double? : Json → Option Double
  | .int n => some (Fp.ofInt .double n)
  | .decimal negative x => Fp.nearest? .double negative x
  | .single x => some (x.convert .double)
  | .double x => some x
  | _ => none

/-- A number as the nearest single. -/
def single? : Json → Option Single
  | .int n => some (Fp.ofInt .single n)
  | .decimal negative x => Fp.nearest? .single negative x
  | .single x => some x
  | .double x => some (x.convert .single)
  | _ => none

def int8? (j : Json) : Option Int8 := (j.signed? 8).map Int8.ofInt

def int16? (j : Json) : Option Int16 := (j.signed? 16).map Int16.ofInt

def int32? (j : Json) : Option Int32 := (j.signed? 32).map Int32.ofInt

def int64? (j : Json) : Option Int64 := (j.signed? 64).map Int64.ofInt

def uint16? (j : Json) : Option UInt16 := (j.nat? 16).map UInt16.ofNat

def uint32? (j : Json) : Option UInt32 := (j.nat? 32).map UInt32.ofNat

def uint64? (j : Json) : Option UInt64 := (j.nat? 64).map UInt64.ofNat

/-! ## Parts -/

/-- A smaller document. -/
abbrev Part (j : Json) := { part : Json // sizeOf part < sizeOf j }

theorem sizeOf_lt_arr {elements : List Json} {j : Json} (h : j ∈ elements) :
    sizeOf j < sizeOf (Json.arr elements) := by
  have := List.sizeOf_lt_of_mem h
  simp only [Json.arr.sizeOf_spec]
  omega

theorem sizeOf_lt_obj {fields : List (String × Json)} (field : String × Json)
    (h : field ∈ fields) : sizeOf field.2 < sizeOf (Json.obj fields) := by
  have := List.sizeOf_lt_of_mem h
  have : sizeOf field = 1 + sizeOf field.1 + sizeOf field.2 := by
    cases field
    simp
  simp only [Json.obj.sizeOf_spec]
  omega

/-- The elements of an array. -/
def elements? : (j : Json) → Option (List (Part j))
  | .arr elements => some (elements.attach.map fun j => ⟨j.1, sizeOf_lt_arr j.2⟩)
  | _ => none

/-- Reads every part that is an element of an array. -/
def mapElements? {α : Type} (j : Json) (read : Part j → Option α) : Option (List α) := do
  (← j.elements?).mapM read

/-- The values of the fields of a name. -/
def fieldsNamed (fields : List (String × Json)) (name : String) : List (Part (.obj fields)) :=
  (fields.attach.filter (·.1.1 == name)).map fun field => ⟨field.1.2, sizeOf_lt_obj field.1 field.2⟩

/-- The one field of a name, `some none` if there is none. -/
def slot? (fields : List (String × Json)) (name : String) :
    Option (Option (Part (.obj fields))) :=
  match fieldsNamed fields name with
  | [] => some none
  | [part] => some (some part)
  | _ => none

/-! ## Records and alternatives -/

/-- What a reader accepts beside the written forms. Every reader takes an array of all fields in
order for a record that stands alone, and `null` for what an alternative without a value carries. -/
structure Leeway where
  /-- The array of a pair or a record may go on after the elements that are asked for. -/
  surplus : Bool
  /-- The record that an alternative carries may be an array, too. -/
  listed : Bool
  /-- What an alternative without a value carries may be an empty object. -/
  hollow : Bool

/-- An array of `length` elements may stand for `count` parts. -/
def Leeway.fits (way : Leeway) (count length : Nat) : Bool :=
  length == count || (way.surplus && count < length)

/-- The fields of a record by name. In an object a field may be missing and other fields are
ignored, but no field is repeated. -/
def record? (way : Leeway) (names : List String) : (j : Json) → Option (List (Option (Part j)))
  | .obj fields => names.mapM (slot? fields)
  | .arr elements =>
    if way.fits names.length elements.length then
      some ((elements.attach.take names.length).map fun j => some ⟨j.1, sizeOf_lt_arr j.2⟩)
    else none
  | _ => none

/-- The fields of a record by name, without the proofs. -/
def slots? (way : Leeway) (names : List String) (j : Json) : Option (List (Option Json)) :=
  (j.record? way names).map (·.map (·.map Subtype.val))

/-- The fields of a record that an alternative carries. -/
def carried? (way : Leeway) (names : List String) (j : Json) : Option (List (Option Json)) :=
  if j matches .arr _ && !way.listed then none else j.slots? way names

/-- Reads a record of one field that an alternative carries. -/
def only? {α : Type} (way : Leeway) (name : String) (read : Json → Option α) (j : Json) :
    Option α := do
  match ← j.carried? way [name] with
  | [some part] => read part
  | _ => none

/-- The two parts of a pair. -/
def pair? (way : Leeway) : (j : Json) → Option (Part j × Part j)
  | .arr (a :: b :: rest) =>
    if way.fits 2 (rest.length + 2) then
      some (⟨a, sizeOf_lt_arr (by simp)⟩, ⟨b, sizeOf_lt_arr (by simp)⟩)
    else none
  | _ => none

/-- The name of an alternative that carries nothing. -/
def word? (way : Leeway) : Json → Option String
  | .str s => some s
  | .obj [(name, .null)] => some name
  | .obj [(name, .obj [])] => if way.hollow then some name else none
  | _ => none

/-- The name of an alternative with what it carries. -/
def tagged? : (j : Json) → Option (String × Part j)
  | .obj [(name, j)] => some (name, ⟨j, sizeOf_lt_obj (name, j) (List.mem_singleton.2 rfl)⟩)
  | _ => none

/-- Reads a value that may be missing: nothing and `null` are no value. -/
def optional? {α : Type} (read : Json → Option α) : Option Json → Option (Option α)
  | none | some .null => some none
  | some j => (read j).map some

/-- Reads every element of an array. -/
def list? {α : Type} (read : Json → Option α) : Json → Option (List α)
  | .arr elements => elements.mapM read
  | _ => none

end Concolic.Json
