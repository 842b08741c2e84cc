import Concolic.Hierarchy.Merge
import Concolic.Term.Basic

/-!
# Checked construction of terms

Leaves are always well typed. Each composite constructor checks its operands in order and fails with
the first that does not fit; the type of the result follows from the operands unless it is given.

The `expect` functions name an operand by its role, which the message of the failure shows.
-/

namespace Concolic.Term

/-! ## Leaves -/

def leaf (kind : Kind) (ty : Ty) : Term := ⟨kind, ty, []⟩

def argument (ty : Ty) (index : Nat) : Term := leaf (.argument index) ty

def value (ty : Ty) (name : String) : Term := leaf (.value name) ty

def receiver (ty : Ty) : Term := leaf .receiver ty

def returnValue (m : Method) : Term := leaf (.returnValue m) m.signature.ret

def constant (c : Constant) : Term := leaf (.ofConstant c) c.ty

def null : Term := constant .null

def bool (b : Bool) : Term := constant (.bool b)

def int (n : Int32) : Term := constant (.int n)

/-- The owner of the static members of a class. -/
def staticRef (className : String) : Term := leaf .staticRef (.ofClassName className)

def undef (ty : Ty) : Term := leaf .undef ty

/-! ## Expectations -/

def expect (ok : Bool) (expected : Expectation) (role : String) (t : Term) : Result Unit :=
  if ok then .ok () else typeFault (.operand role t.name expected t.ty)

def expectPointer (role : String) (t : Term) : Result Unit :=
  expect t.ty.isPointer .reference role t

def expectIntegral (role : String) (t : Term) : Result Unit :=
  expect t.ty.isIntegral .integral role t

def expectBool (role : String) (t : Term) : Result Unit := expect (t.ty == .bool) .boolean role t

/-- `null` counts as text. -/
def expectString (role : String) (t : Term) : Result Unit :=
  expect (t.ty.isString || t.isNull) .string role t

def expectValue (role : String) (t : Term) : Result Unit :=
  if Hierarchy.isNonValue t.ty then typeFault (.noValue role t.name t.ty) else .ok ()

/-! ## Memory -/

def arrayIndex (array index : Term) : Result Term := do
  match array.ty.element? with
  | none => typeFault (.indexedNonArray array.name array.ty)
  | some element =>
    expectIntegral "Array index" index
    .ok ⟨.arrayIndex, .reference element, [array, index]⟩

/-- The value at a reference. -/
def loadReferenced (kind : Kind) (ref : Term) : Result Term :=
  match ref.ty.referenced? with
  | none => typeFault (.notReference ref.name ref.ty)
  | some ty => .ok ⟨kind, ty, [ref]⟩

def arrayLoad (index : Term) : Result Term :=
  match index.kind with
  | .arrayIndex => loadReferenced .arrayLoad index
  | _ => typeFault (.loadNeedsElement index.name)

def arrayLength (array : Term) : Result Term :=
  match array.ty.element? with
  | none => typeFault (.lengthOfNonArray array.name array.ty)
  | some _ => .ok ⟨.arrayLength, .int, [array]⟩

def arrayContains (array item : Term) : Result Term := do
  match array.ty.element? with
  | none => typeFault (.containmentInNonArray array.name)
  | some _ =>
    expectValue "Contained value" item
    .ok ⟨.arrayContains, .bool, [array, item]⟩

/-- The owner is an object or the static part of a class. -/
def field (owner : Term) (ty : Ty) (name : String) : Result Term := do
  expectPointer "Field owner" owner
  .ok ⟨.field name, .reference ty, [owner]⟩

def fieldLoad (ref : Term) : Result Term :=
  match ref.kind with
  | .field _ => loadReferenced .fieldLoad ref
  | _ => typeFault (.loadNeedsField ref.name)

/-- Loads from either kind of reference. -/
def load (ref : Term) : Result Term :=
  match ref.kind with
  | .arrayIndex => arrayLoad ref
  | .field _ => fieldLoad ref
  | _ => typeFault (.cannotLoad ref.name)

/-! ## Arithmetic and comparison -/

def expectPrimitive (op : BinaryOp) (t : Term) : Result Unit :=
  if t.ty.isPrimitive then .ok () else typeFault (.nonPrimitiveOperand t.name op.symbol t.ty)

/-- An operation with a given result type. -/
def binaryTyped (ty : Ty) (op : BinaryOp) (left right : Term) : Result Term := do
  expectPrimitive op left
  expectPrimitive op right
  if ty.isPrimitive then .ok ⟨.binary op, ty, [left, right]⟩
  else typeFault (.nonPrimitiveResult op.symbol ty)

/-- An operation whose result type is merged from the operands. -/
def binary (h : Hierarchy) (op : BinaryOp) (left right : Term) : Result Term := do
  binaryTyped (← h.merge [left.ty, right.ty]) op left right

def neg (operand : Term) : Result Term :=
  if operand.ty.isNumeric then .ok ⟨.neg, operand.ty, [operand]⟩
  else typeFault (.negatedNonNumber operand.name operand.ty)

def unary : UnaryOp → Term → Result Term
  | .neg => neg
  | .length => arrayLength

/-- Both operands are primitive, or both are references and the operator is an equality. -/
def compare (op : CompareOp) (left right : Term) : Result Term :=
  let primitive := left.ty.isPrimitive && right.ty.isPrimitive
  let pointer := left.ty.isPointer && right.ty.isPointer
  if !primitive && !pointer then
    typeFault (.incomparable left.name left.ty right.name right.ty)
  else if pointer && !op.isEquality then
    typeFault (.orderedReferences left.name right.name op.symbol)
  else .ok ⟨.compare op, if op.isThreeWay then .int else .bool, [left, right]⟩

def equals (left right : Term) : Result Term := do
  expectPointer "Receiver of equals" left
  expectPointer "Argument of equals" right
  .ok ⟨.equals, .bool, [left, right]⟩

/-! ## Types -/

/-- A cast keeps primitives primitive and references references. -/
def cast (ty : Ty) (operand : Term) : Result Term := do
  expectValue "Cast operand" operand
  if operand.ty.isPrimitive != ty.isPrimitive || ty == .void then
    typeFault (.cannotCast operand.name operand.ty ty)
  else .ok ⟨.cast, ty, [operand]⟩

def instanceOf (operand : Term) (checked : Ty) : Result Term := do
  expectPointer "Instance-of operand" operand
  .ok ⟨.instanceOf checked, .bool, [operand]⟩

def classAccess (operand : Term) : Result Term := do
  expectPointer "Class access operand" operand
  .ok ⟨.classAccess, .classLiteral, [operand]⟩

def bound (pointer : Term) : Result Term := do
  expectPointer "Bound operand" pointer
  .ok ⟨.bound, .int, [pointer]⟩

/-! ## Calls -/

/-- A call has as many arguments as the signature of its method. -/
def call (owner : Term) (m : Method) (arguments : List Term) : Result Term := do
  expectPointer "Call owner" owner
  if arguments.length = m.signature.args.length then
    .ok ⟨.call m, m.signature.ret, owner :: arguments⟩
  else typeFault (.argumentCount m.key m.signature.args.length arguments.length)

/-! ## Text -/

def concat (left right : Term) : Result Term := do
  expectString "Concatenated term" left
  expectString "Concatenated term" right
  .ok ⟨.concat, .string, [left, right]⟩

def substring (text offset length : Term) : Result Term := do
  expectString "Substring source" text
  expectIntegral "Substring offset" offset
  expectIntegral "Substring length" length
  .ok ⟨.substring, .string, [text, offset, length]⟩

def indexOf (text part offset : Term) : Result Term := do
  expectString "Searched string" text
  expectString "Searched substring" part
  expectIntegral "Search offset" offset
  .ok ⟨.indexOf, .int, [text, part, offset]⟩

def charAt (text index : Term) : Result Term := do
  expectString "Indexed string" text
  expectIntegral "Character index" index
  .ok ⟨.charAt, .char, [text, index]⟩

def stringLength (text : Term) : Result Term := do
  expectString "Measured string" text
  .ok ⟨.stringLength, .int, [text]⟩

/-- A truth value about two texts. -/
def stringTest (kind : Kind) (text part : Term) : Result Term := do
  expectString "String operand" text
  expectString "String operand" part
  .ok ⟨kind, .bool, [text, part]⟩

def stringContains (text part : Term) : Result Term := stringTest .stringContains text part

def startsWith (text part : Term) : Result Term := stringTest .startsWith text part

def endsWith (text part : Term) : Result Term := stringTest .endsWith text part

def stringParse (ty : Ty) (text : Term) : Result Term := do
  expectString "Parsed string" text
  if ty.isPrimitive then .ok ⟨.stringParse, ty, [text]⟩ else typeFault (.parsedNonPrimitive ty)

def toText (operand : Term) : Result Term := do
  expectValue "Converted term" operand
  .ok ⟨.toText, .string, [operand]⟩

/-! ## Quantifiers and functions -/

/-- The body of a quantifier is a lambda of one parameter that yields a truth value. -/
def quantifier (kind : Kind) (start stop body : Term) : Result Term := do
  expectIntegral "Quantifier start" start
  expectIntegral "Quantifier end" stop
  match body.kind, body.subterms with
  | .lambda, [_, predicate] =>
    expectBool "Quantifier body" predicate
    .ok ⟨kind, .bool, [start, stop, body]⟩
  | _, _ => typeFault (.quantifierBody body.name)

def forAll (start stop body : Term) : Result Term := quantifier .forAll start stop body

def forSome (start stop body : Term) : Result Term := quantifier .forSome start stop body

def ite (ty : Ty) (condition positive negative : Term) : Result Term := do
  expectBool "Ite condition" condition
  .ok ⟨.ite, ty, [condition, positive, negative]⟩

/-- The parameters of a lambda are named values or arguments. -/
def lambda (ty : Ty) (parameters : List Term) (body : Term) : Result Term :=
  match parameters.find? fun p => !p.kind.isNamed with
  | some p => typeFault (.lambdaParameter p.name)
  | none => .ok ⟨.lambda, ty, parameters ++ [body]⟩

end Concolic.Term
