import Concolic.Ty.Basic

/-!
# Errors

An `Error` is the cause of a failed operation. Its kinds are the ones a caller tells apart:
malformed input, names that do not resolve, operations that do not fit the types of their operands,
and broken invariants of a trace. Each cause carries what its message shows; terms, methods and
instructions are carried by their texts. `Error.message` holds all the wording.

Only a broken invariant is fatal: it ends the run over a trace.
-/

namespace Concolic

/-- Why an input is malformed. -/
inductive Malformed where
  | emptyDescriptor
  | trailingCharacters (rest descriptor : String)
  | unterminatedClass (descriptor : String)
  | emptyClassName (descriptor : String)
  | unknownDescriptor (character : Char) (descriptor : String)
  | emptyTypeName
  | invalidTypeName (name : String)
  | duplicateInstruction (name method : String)
  | invalidArgument (name : String)
  | noResult (instruction : String)
  | nullException (name : String)
  | switchKeyKind (key : String)
  | switchKeyRange (key : Int)
  | untypedPathEntry (name : String)
deriving DecidableEq

/-- What the type of an operand must be. -/
inductive Expectation where
  | reference
  | integral
  | boolean
  | string
deriving DecidableEq

/-- Why an operation does not fit its operands. -/
inductive TypeFault where
  | operand (role term : String) (expected : Expectation) (found : Ty)
  | noValue (role term : String) (found : Ty)
  | indexedNonArray (term : String) (found : Ty)
  | lengthOfNonArray (term : String) (found : Ty)
  | containmentInNonArray (term : String)
  | loadNeedsElement (term : String)
  | loadNeedsField (term : String)
  | cannotLoad (term : String)
  | notReference (term : String) (found : Ty)
  | nonPrimitiveOperand (term op : String) (found : Ty)
  | nonPrimitiveResult (op : String) (found : Ty)
  | negatedNonNumber (term : String) (found : Ty)
  | incomparable (left : String) (leftTy : Ty) (right : String) (rightTy : Ty)
  | orderedReferences (left right op : String)
  | cannotCast (term : String) (found target : Ty)
  | argumentCount (method : String) (expected found : Nat)
  | parsedNonPrimitive (target : Ty)
  | quantifierBody (term : String)
  | lambdaParameter (term : String)
  | childCount (term : String) (expected found : Nat)
  | missingChild
  | fieldWithoutReference (term : String)
  | lambdaWithoutBody (term : String)
  | mergeNonValues (types : List Ty)
  | mergeMixed (types : List Ty)
  | noInverse (predicate kind : String)
  | notCall (term : String)
  | cannotStore (term : String)
  | cannotInitialize (term : String)
  | generatorNotLambda (term : String)
  | incomparableValues (left right : String)
  | orderedIdentities (op : String)
deriving DecidableEq

/-- Which invariant of a trace is broken. -/
inductive Broken where
  | noFrame
  | returnWithoutFrame (instruction : String)
  | foreignReturn (instruction method : String)
  | unknownCondition (term instruction : String)
  | callAtBlockEnd (instruction : String)
  | phiWithoutIncoming (instruction : String) (block : Nat)
  | noBlock (instruction : String)
  | uncaught (thrown : Ty)
deriving DecidableEq

inductive Error where
  | malformed (cause : Malformed)
  | unknownName (name scope : String)
  | unexpectedInstruction (name expected : String)
  | methodNotFound (key : String)
  | classNotFound (name : String)
  | fieldNotFound (field : String)
  | typeFault (cause : TypeFault)
  | broken (cause : Broken)
  | aborted
  | poisoned
  | unreadable
deriving DecidableEq

def Malformed.message : Malformed → String
  | .emptyDescriptor => "Empty type descriptor"
  | .trailingCharacters rest d => s!"Trailing characters `{rest}` in descriptor `{d}`"
  | .unterminatedClass d => s!"Unterminated class descriptor `{d}`"
  | .emptyClassName d => s!"Empty class name in `{d}`"
  | .unknownDescriptor c d => s!"Unknown descriptor character `{c}` in `{d}`"
  | .emptyTypeName => "Empty type name"
  | .invalidTypeName name => s!"Invalid type name `{name}`"
  | .duplicateInstruction name method => s!"Duplicate instruction name `{name}` in {method}"
  | .invalidArgument name => s!"Invalid argument name `{name}`"
  | .noResult inst => s!"Instruction {inst} produces no value"
  | .nullException name => s!"Caught exception `{name}` is null"
  | .switchKeyKind key => s!"Switch key {key} is not integral"
  | .switchKeyRange key => s!"Switch key {key} does not fit an int"
  | .untypedPathEntry name => s!"Path entry for {name} has no clause type"

def Expectation.text : Expectation → String
  | .reference => "a reference"
  | .integral => "integral"
  | .boolean => "boolean"
  | .string => "a string"

/-- The types of a list, in brackets. -/
def showTypes (types : List Ty) : String := bracketed (types.map Ty.debug)

def TypeFault.message : TypeFault → String
  | .operand role term expected found =>
    s!"{role} `{term}` must be {expected.text}, found {found.text}"
  | .noValue role term found => s!"{role} `{term}` has no value type, found {found.text}"
  | .indexedNonArray term found => s!"Indexed term `{term}` must be an array, found {found.text}"
  | .lengthOfNonArray term found => s!"Length of `{term}` needs an array, found {found.text}"
  | .containmentInNonArray term => s!"Containment test needs an array, found `{term}`"
  | .loadNeedsElement term => s!"Array load needs an element reference, found `{term}`"
  | .loadNeedsField term => s!"Field load needs a field reference, found `{term}`"
  | .cannotLoad term => s!"Cannot load from `{term}`"
  | .notReference term found => s!"`{term}` is not a reference, found {found.text}"
  | .nonPrimitiveOperand term op found =>
    s!"Operand `{term}` of `{op}` must be primitive, found {found.text}"
  | .nonPrimitiveResult op found => s!"Result of `{op}` must be primitive, found {found.text}"
  | .negatedNonNumber term found => s!"Negated term `{term}` must be numeric, found {found.text}"
  | .incomparable left leftTy right rightTy =>
    s!"Cannot compare `{left}` ({leftTy.text}) with `{right}` ({rightTy.text})"
  | .orderedReferences left right op =>
    s!"References `{left}` and `{right}` only support == and !=, found {op}"
  | .cannotCast term found target => s!"Cannot cast `{term}` ({found.text}) to {target.text}"
  | .argumentCount method expected found => s!"{method} expects {expected} arguments, got {found}"
  | .parsedNonPrimitive target => s!"Strings only parse to primitives, not {target.text}"
  | .quantifierBody term => s!"Quantifier body `{term}` must be a one-parameter lambda"
  | .lambdaParameter term => s!"Lambda parameter `{term}` must be a named value"
  | .childCount term expected found => s!"`{term}` has {expected} children, rebuild got {found}"
  | .missingChild => "Missing child while rebuilding"
  | .fieldWithoutReference term => s!"Field `{term}` lost its reference type"
  | .lambdaWithoutBody term => s!"Lambda `{term}` has no body"
  | .mergeNonValues types => s!"Cannot merge non-value types {showTypes types}"
  | .mergeMixed types => s!"Cannot merge reference and primitive types {showTypes types}"
  | .noInverse predicate kind => s!"Predicate `{predicate}` of kind {kind} has no inverse"
  | .notCall term => s!"`{term}` is not a call term"
  | .cannotStore term => s!"Cannot store through `{term}`"
  | .cannotInitialize term => s!"Cannot initialize through `{term}`"
  | .generatorNotLambda term => s!"Array generator `{term}` must be a lambda"
  | .incomparableValues left right => s!"Cannot compare {left} with {right}"
  | .orderedIdentities op => s!"References only compare with == and !=, found {op}"

def Broken.message : Broken → String
  | .noFrame => "No active frame"
  | .returnWithoutFrame inst => s!"Return {inst} with an empty frame stack"
  | .foreignReturn inst method => s!"Return {inst} does not belong to the active method {method}"
  | .unknownCondition term inst => s!"Unknown boolean value {term} in branch {inst}"
  | .callAtBlockEnd inst => s!"Call {inst} is not followed by an instruction"
  | .phiWithoutIncoming inst block => s!"Phi {inst} has no incoming value from block #{block}"
  | .noBlock inst => s!"Instruction {inst} has no block"
  | .uncaught thrown => s!"Could not find a catch block for exception type {thrown.text}"

namespace Error

def message : Error → String
  | .malformed cause => cause.message
  | .unknownName name scope => s!"Unknown identifier `{name}` in {scope}"
  | .unexpectedInstruction name expected =>
    s!"Instruction `{name}` is not a {expected} instruction"
  | .methodNotFound key => s!"Method not found - {key}"
  | .classNotFound name => s!"Class not found - {name}"
  | .fieldNotFound field => s!"Field not found - {field}"
  | .typeFault cause => s!"Type error - {cause.message}"
  | .broken cause => cause.message
  | .aborted => "Translation was aborted by an earlier failure"
  | .poisoned => "Failed to lock target"
  | .unreadable => "Unreadable document"

/-- The failure ends the run over the trace. -/
def isFatal : Error → Bool
  | .broken _ => true
  | _ => false

end Error

/-- An operation that may fail. -/
abbrev Result := Except Error

/-- Fails with a malformed input. -/
def malformed {α : Type} (cause : Malformed) : Result α := .error (.malformed cause)

/-- Fails with a type fault. -/
def typeFault {α : Type} (cause : TypeFault) : Result α := .error (.typeFault cause)

end Concolic
