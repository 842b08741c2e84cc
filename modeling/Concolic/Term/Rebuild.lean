import Concolic.Term.Build

/-!
# Rebuilding

`rebuild t children` is the term of the kind of `t` over new children, made by the constructor of
that kind so that the type rules are checked again. Leaves stay as they are. There must be as many
children as `t` has subterms; a term that never passed a constructor may have too few of them for
its kind.
-/

namespace Concolic.Term

/-- The child at a position. -/
def child (children : List Term) (i : Nat) : Result Term :=
  match children[i]? with
  | some t => .ok t
  | none => typeFault .missingChild

def unaryOver (build : Term → Result Term) (children : List Term) : Result Term := do
  build (← child children 0)

def binaryOver (build : Term → Term → Result Term) (children : List Term) : Result Term := do
  build (← child children 0) (← child children 1)

def ternaryOver (build : Term → Term → Term → Result Term) (children : List Term) :
    Result Term := do
  build (← child children 0) (← child children 1) (← child children 2)

/-- The constructor of the kind of `t`, applied to the children. -/
def construct (t : Term) (children : List Term) : Result Term :=
  match t.kind with
  | .arrayIndex => binaryOver arrayIndex children
  | .arrayLoad => unaryOver arrayLoad children
  | .arrayLength => unaryOver arrayLength children
  | .arrayContains => binaryOver arrayContains children
  | .field name =>
    match t.ty.referenced? with
    | none => typeFault (.fieldWithoutReference t.name)
    | some ty => unaryOver (field · ty name) children
  | .fieldLoad => unaryOver fieldLoad children
  | .binary op => binaryOver (binaryTyped t.ty op) children
  | .neg => unaryOver neg children
  | .compare op => binaryOver (compare op) children
  | .equals => binaryOver equals children
  | .cast => unaryOver (cast t.ty) children
  | .instanceOf checked => unaryOver (instanceOf · checked) children
  | .call m => unaryOver (call · m (children.drop 1)) children
  | .concat => binaryOver concat children
  | .substring => ternaryOver substring children
  | .indexOf => ternaryOver indexOf children
  | .charAt => binaryOver charAt children
  | .stringLength => unaryOver stringLength children
  | .stringContains => binaryOver stringContains children
  | .startsWith => binaryOver startsWith children
  | .endsWith => binaryOver endsWith children
  | .stringParse => unaryOver (stringParse t.ty) children
  | .toText => unaryOver toText children
  | .forAll => ternaryOver forAll children
  | .forSome => ternaryOver forSome children
  | .ite => ternaryOver (ite t.ty) children
  | .lambda =>
    match children.getLast? with
    | none => typeFault (.lambdaWithoutBody t.name)
    | some body => lambda t.ty children.dropLast body
  | .classAccess => unaryOver classAccess children
  | .bound => unaryOver bound children
  | _ => .ok t

/-- The term over new children, checked again. -/
def rebuild (t : Term) (children : List Term) : Result Term :=
  if children.length = t.subterms.length then t.construct children
  else typeFault (.childCount t.name t.subterms.length children.length)

end Concolic.Term
