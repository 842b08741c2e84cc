import Concolic.Json.Part
import Concolic.Ty.Basic

/-!
# Types as documents
-/

namespace Concolic.Ty

/-- The types that are a single word. -/
def words : List (String × Ty) :=
  [("Void", .void), ("Bool", .bool), ("Byte", .byte), ("Char", .char), ("Short", .short),
    ("Int", .int), ("Long", .long), ("Float", .float), ("Double", .double), ("Null", .null)]

def toJson : Ty → Json
  | .object name => .tag "Class" (.str name)
  | .array element => .tag "Array" element.toJson
  | .reference target => .tag "Reference" target.toJson
  | .void => .str "Void"
  | .bool => .str "Bool"
  | .byte => .str "Byte"
  | .char => .str "Char"
  | .short => .str "Short"
  | .int => .str "Int"
  | .long => .str "Long"
  | .float => .str "Float"
  | .double => .str "Double"
  | .null => .str "Null"

def ofJson? (way : Json.Leeway) (j : Json) : Option Ty :=
  match (j.word? way).bind (words.lookup ·) with
  | some t => some t
  | none =>
    match j.tagged? with
    | some ("Class", part) => part.1.str?.map .object
    | some ("Array", part) => (ofJson? way part.1).map .array
    | some ("Reference", part) => (ofJson? way part.1).map .reference
    | _ => none
termination_by sizeOf j
decreasing_by all_goals exact part.2

end Concolic.Ty
