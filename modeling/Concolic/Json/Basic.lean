import Concolic.Fp.Decimal

/-!
# JSON documents

A document as a tree. An object keeps its fields in order, repeated ones included. Whole numbers
stand apart from numbers with a fraction or an exponent. Of the latter, those that were computed
keep the precision they were made with, and those that were read stay the decimals they were written
as.

Some text has the form of a document and no value: a number too large for every precision, and text
with half of a surrogate pair. It may stand where nobody asks for a value, in a field that a record
does not have. `settle` gives a document the values it has as a whole.
-/

namespace Concolic

inductive Json where
  | null
  | bool (b : Bool)
  | int (n : Int)
  /-- A number as it is written. -/
  | decimal (negative : Bool) (x : Fp.Decimal)
  | single (x : Single)
  | double (x : Double)
  | str (s : String)
  /-- Text with half of a surrogate pair, or an object that has such a name. -/
  | valueless
  | arr (elements : List Json)
  | obj (fields : List (String × Json))

namespace Json

mutual

/-- Replaces everything in the document that is no array and no object. -/
def mapLeaves (f : Json → Json) : Json → Json
  | .arr elements => .arr (mapLeavesAll f elements)
  | .obj fields => .obj (mapLeavesFields f fields)
  | j => f j

def mapLeavesAll (f : Json → Json) : List Json → List Json
  | [] => []
  | j :: js => j.mapLeaves f :: mapLeavesAll f js

def mapLeavesFields (f : Json → Json) : List (String × Json) → List (String × Json)
  | [] => []
  | (name, j) :: fields => (name, j.mapLeaves f) :: mapLeavesFields f fields

end

mutual

/-- Keeps only the last of the fields with one name, everywhere in the document. -/
def lastFields : Json → Json
  | .arr elements => .arr (lastFieldsAll elements)
  | .obj fields => .obj (lastFieldsOf fields)
  | j => j

def lastFieldsAll : List Json → List Json
  | [] => []
  | j :: js => j.lastFields :: lastFieldsAll js

def lastFieldsOf : List (String × Json) → List (String × Json)
  | [] => []
  | (name, j) :: fields =>
    if fields.any (·.1 == name) then lastFieldsOf fields
    else (name, j.lastFields) :: lastFieldsOf fields

end

mutual

/-- The document with every number in double precision; `none` if a part of it has no value. -/
def settle : Json → Option Json
  | .decimal negative x => (Fp.nearest? .double negative x).map .double
  | .valueless => none
  | .arr elements => (settleAll elements).map .arr
  | .obj fields => (settleFields fields).map .obj
  | j => some j

def settleAll : List Json → Option (List Json)
  | [] => some []
  | j :: js => do
    let j ← j.settle
    let js ← settleAll js
    some (j :: js)

def settleFields : List (String × Json) → Option (List (String × Json))
  | [] => some []
  | (name, j) :: fields => do
    let j ← j.settle
    let fields ← settleFields fields
    some ((name, j) :: fields)

end

/-! ## Making documents -/

/-- An alternative with what it carries. -/
def tag (name : String) (j : Json) : Json := .obj [(name, j)]

/-- The value, or `null`. -/
def ofOption {α : Type} (write : α → Json) : Option α → Json
  | some a => write a
  | none => .null

def nat (n : Nat) : Json := .int n

def strings (ss : List String) : Json := .arr (ss.map .str)

end Json

end Concolic
