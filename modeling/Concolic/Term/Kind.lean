import Concolic.Operator
import Concolic.Value

/-!
# Kinds of terms

The kind of a term says what the node is; it carries only what the type and the subterms of the node
do not already say. The layout of the subterms stands beside each composite kind. `Kind.name` tells
the kinds apart and ignores what they carry. `Kind.render` derives the name of a term from its kind,
its type and the names of its subterms; a subterm that is missing is shown as a question mark.
-/

namespace Concolic

inductive Kind where
  | argument (index : Nat)
  | value (name : String)
  | receiver
  | returnValue (method : Method)
  | null
  | constBool (b : Bool)
  | constByte (n : Int8)
  | constChar (unit : UInt16)
  | constShort (n : Int16)
  | constInt (n : Int32)
  | constLong (n : Int64)
  | constFloat (x : Single)
  | constDouble (x : Double)
  | constString (s : String)
  | constClass (t : Ty)
  /-- The owner of the static members of a class. -/
  | staticRef
  /-- `[array, index]`, a reference to the element. -/
  | arrayIndex
  /-- `[element reference]` -/
  | arrayLoad
  /-- `[array]` -/
  | arrayLength
  /-- `[array, value]` -/
  | arrayContains
  /-- `[owner]`, a reference to the field. -/
  | field (name : String)
  /-- `[field reference]` -/
  | fieldLoad
  /-- `[left, right]` -/
  | binary (op : BinaryOp)
  /-- `[operand]` -/
  | neg
  /-- `[left, right]` -/
  | compare (op : CompareOp)
  /-- `[left, right]` -/
  | equals
  /-- `[operand]`, cast to the type of the term. -/
  | cast
  /-- `[operand]` -/
  | instanceOf (checked : Ty)
  /-- `[owner, arguments..]` -/
  | call (method : Method)
  /-- `[left, right]` -/
  | concat
  /-- `[text, offset, length]` -/
  | substring
  /-- `[text, part, offset]` -/
  | indexOf
  /-- `[text, index]` -/
  | charAt
  /-- `[text]` -/
  | stringLength
  /-- `[text, part]` -/
  | stringContains
  /-- `[text, part]` -/
  | startsWith
  /-- `[text, part]` -/
  | endsWith
  /-- `[text]`, read as a value of the type of the term. -/
  | stringParse
  /-- `[operand]` -/
  | toText
  /-- `[start, end, body]`, the body holds for every index from `start` to below `end`. -/
  | forAll
  /-- `[start, end, body]`, the body holds for some index from `start` to below `end`. -/
  | forSome
  /-- `[condition, then, else]` -/
  | ite
  /-- `[parameters.., body]` -/
  | lambda
  /-- `[operand]`, the class of the object. -/
  | classAccess
  /-- `[pointer]`, the bound of its allocation. -/
  | bound
  /-- A value without a definition. -/
  | undef
deriving DecidableEq

namespace Kind

/-- The word for the kind. -/
def name : Kind → String
  | .argument _ => "argument"
  | .value _ => "value"
  | .receiver => "this"
  | .returnValue _ => "return_value"
  | .null => "null"
  | .constBool _ => "const_bool"
  | .constByte _ => "const_byte"
  | .constChar _ => "const_char"
  | .constShort _ => "const_short"
  | .constInt _ => "const_int"
  | .constLong _ => "const_long"
  | .constFloat _ => "const_float"
  | .constDouble _ => "const_double"
  | .constString _ => "const_string"
  | .constClass _ => "const_class"
  | .staticRef => "static_class_ref"
  | .arrayIndex => "array_index"
  | .arrayLoad => "array_load"
  | .arrayLength => "array_length"
  | .arrayContains => "array_contains"
  | .field _ => "field"
  | .fieldLoad => "field_load"
  | .binary _ => "binary"
  | .neg => "neg"
  | .compare _ => "cmp"
  | .equals => "equals"
  | .cast => "cast"
  | .instanceOf _ => "instance_of"
  | .call _ => "call"
  | .concat => "concat"
  | .substring => "substring"
  | .indexOf => "index_of"
  | .charAt => "char_at"
  | .stringLength => "string_length"
  | .stringContains => "string_contains"
  | .startsWith => "starts_with"
  | .endsWith => "ends_with"
  | .stringParse => "string_parse"
  | .toText => "to_string"
  | .forAll => "for_all"
  | .forSome => "exists"
  | .ite => "ite"
  | .lambda => "lambda"
  | .classAccess => "class_access"
  | .bound => "bound"
  | .undef => "undef"

/-- Constants, `null` included. -/
def isConstant : Kind → Bool
  | .null | .constBool _ | .constByte _ | .constChar _ | .constShort _ | .constInt _ | .constLong _
  | .constFloat _ | .constDouble _ | .constString _ | .constClass _ => true
  | _ => false

/-- Kinds that have no subterms. -/
def isLeaf : Kind → Bool
  | .argument _ | .value _ | .receiver | .returnValue _ | .staticRef | .undef => true
  | k => k.isConstant

/-- The kinds that can bind a parameter. -/
def isNamed : Kind → Bool
  | .value _ | .argument _ => true
  | _ => false

/-- The kind of a literal. -/
def ofConstant : Constant → Kind
  | .null => .null
  | .bool b => .constBool b
  | .byte n => .constByte n
  | .char unit => .constChar unit
  | .short n => .constShort n
  | .int n => .constInt n
  | .long n => .constLong n
  | .float x => .constFloat x
  | .double x => .constDouble x
  | .string s => .constString s
  | .classLit t => .constClass t

/-- The name of a term of the kind, over the names of its subterms. -/
def render (k : Kind) (ty : Ty) (subs : List String) : String :=
  let sub (i : Nat) : String := subs.getD i "?"
  let commas (names : List String) : String := String.intercalate ", " names
  match k with
  | .argument index => Value.argumentName index
  | .value name => name
  | .receiver => "this"
  | .returnValue m => "<retval>" ++ m.owner ++ "." ++ m.name
  | .null => "null"
  | .constBool b => boolText b
  | .constByte n => toString n.toInt ++ "b"
  | .constChar unit => Text.quoteUnit unit
  | .constShort n => toString n.toInt ++ "s"
  | .constInt n => toString n.toInt
  | .constLong n => toString n.toInt ++ "L"
  | .constFloat x => x.text ++ "f"
  | .constDouble x => x.text
  | .constString s => "\"" ++ Text.escape s ++ "\""
  | .constClass t => t.text ++ ".class"
  | .staticRef => "static " ++ ty.text
  | .arrayIndex => sub 0 ++ "[" ++ sub 1 ++ "]"
  | .arrayLoad | .fieldLoad => "*(" ++ sub 0 ++ ")"
  | .arrayLength => sub 0 ++ ".length"
  | .arrayContains => sub 1 ++ " in " ++ sub 0
  | .field name => sub 0 ++ "." ++ name
  | .binary op => "(" ++ sub 0 ++ " " ++ op.symbol ++ " " ++ sub 1 ++ ")"
  | .neg => "-" ++ sub 0
  | .compare op => "(" ++ sub 0 ++ " " ++ op.symbol ++ " " ++ sub 1 ++ ")"
  | .equals => sub 0 ++ ".equals(" ++ sub 1 ++ ")"
  | .cast => "(" ++ ty.text ++ ") " ++ sub 0
  | .instanceOf checked => sub 0 ++ " instanceof " ++ checked.text
  | .call m => sub 0 ++ "." ++ m.name ++ "(" ++ commas (subs.drop 1) ++ ")"
  | .concat => sub 0 ++ " ++ " ++ sub 1
  | .substring => sub 0 ++ ".substring(" ++ sub 1 ++ ", " ++ sub 2 ++ ")"
  | .indexOf => sub 0 ++ ".indexOf(" ++ sub 1 ++ ", " ++ sub 2 ++ ")"
  | .charAt => sub 0 ++ ".charAt(" ++ sub 1 ++ ")"
  | .stringLength => sub 0 ++ ".length()"
  | .stringContains => sub 0 ++ ".contains(" ++ sub 1 ++ ")"
  | .startsWith => sub 0 ++ ".startsWith(" ++ sub 1 ++ ")"
  | .endsWith => sub 0 ++ ".endsWith(" ++ sub 1 ++ ")"
  | .stringParse => ty.text ++ ".parse(" ++ sub 0 ++ ")"
  | .toText => sub 0 ++ ".toString()"
  | .forAll => "forAll(" ++ sub 0 ++ ", " ++ sub 1 ++ ", " ++ sub 2 ++ ")"
  | .forSome => "exists(" ++ sub 0 ++ ", " ++ sub 1 ++ ", " ++ sub 2 ++ ")"
  | .ite => "ite(" ++ sub 0 ++ ", " ++ sub 1 ++ ", " ++ sub 2 ++ ")"
  | .lambda => "(" ++ commas subs.dropLast ++ ") -> \x7b " ++ subs.getLast?.getD "?" ++ " \x7d"
  | .classAccess => sub 0 ++ ".getClass()"
  | .bound => "bound(" ++ sub 0 ++ ")"
  | .undef => "<undef>"

end Kind

end Concolic
