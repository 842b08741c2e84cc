import Concolic.Ty.Parse

/-!
# Methods and fields

A method is known by its `key`: owner class, name and signature. The modifiers are carried along but
are not part of the key.
-/

namespace Concolic

/-- Argument and return types. -/
structure Signature where
  args : List Ty
  ret : Ty
deriving DecidableEq

namespace Signature

/-- The argument descriptors in parentheses, then the return descriptor. -/
def text (s : Signature) : String :=
  "(" ++ String.join (s.args.map Ty.descriptor) ++ ")" ++ s.ret.descriptor

/-- Reads every type of a signature, the arguments first. -/
def parse (args : List String) (ret : String) : Result Signature := do
  let args ← args.mapM Ty.parse
  let ret ← Ty.parse ret
  .ok { args, ret }

end Signature

structure Method where
  /-- The class that owns the method, with slashes. -/
  owner : String
  name : String
  signature : Signature
  /-- Modifier bits; bits without a meaning here are kept. -/
  flags : UInt32
deriving DecidableEq

namespace Method

def staticFlag : UInt32 := 8

def finalFlag : UInt32 := 16

def nativeFlag : UInt32 := 256

def abstractFlag : UInt32 := 1024

def new (owner name : String) (signature : Signature) (flags : UInt32) : Method :=
  { owner := slashed owner, name, signature, flags }

/-- The text by which a method is found. -/
def key (m : Method) : String := m.owner ++ "." ++ m.name ++ m.signature.text

def isStatic (m : Method) : Bool := m.flags &&& staticFlag == staticFlag

def isFinal (m : Method) : Bool := m.flags &&& finalFlag == finalFlag

/-- The type of the receiver, for methods that have one. -/
def receiver? (m : Method) : Option Ty :=
  if m.isStatic then none else some (Ty.ofClassName m.owner)

end Method

/-- A field as the class that declares it has it. -/
structure FieldRef where
  owner : String
  name : String
  ty : Ty
  isStatic : Bool
deriving DecidableEq

end Concolic
