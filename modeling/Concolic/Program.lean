import Concolic.Body.Builder
import Concolic.Hierarchy.Subtype

/-!
# Programs

A program is what a trace is read against: the class hierarchy, the known methods and their bodies,
both found by the key of the method.
-/

namespace Concolic

structure Program where
  hierarchy : Hierarchy
  methods : Table String Method
  bodies : Table String Body

namespace Program

/-- The standard classes and no methods. -/
def empty : Program := ⟨.standard, ∅, ∅⟩

variable (p : Program)

/-! ## Building -/

def addClass (c : ClassDecl) : Program := { p with hierarchy := p.hierarchy.insert c }

/-- Registers a method, in place of an earlier one with its key. -/
def addMethod (m : Method) : Program := { p with methods := p.methods.insert m.key m }

/-- Adds the body of a method, and registers the method unless its key is taken. -/
def addBody (b : Body) : Program :=
  { p with
    methods := p.methods.insertNew b.method.key b.method
    bodies := p.bodies.insert b.method.key b }

/-! ## Lookup -/

def method? (key : String) : Option Method := p.methods.get? key

/-- The method that a trace names; a method that is not registered is made up without modifiers. -/
def method (owner name : String) (args : List String) (ret : String) : Result Method := do
  let signature ← Signature.parse args ret
  let probe := Method.new owner name signature 0
  .ok ((p.method? probe.key).getD probe)

def body (m : Method) : Result Body :=
  match p.bodies.get? m.key with
  | some b => .ok b
  | none => .error (.methodNotFound m.key)

/-- The field that an access names, as the class that declares it has it. -/
def field (owner name ty : String) : Result FieldRef := do
  let owner := slashed owner
  let ty ← Ty.parse ty
  if !p.hierarchy.contains owner then .error (.classNotFound owner)
  else
    match p.hierarchy.field? owner name ty with
    | none => .error (.fieldNotFound (owner ++ "." ++ name ++ ": " ++ ty.text))
    | some (owner, decl) =>
      .ok { owner, name := decl.name, ty := decl.ty, isStatic := decl.isStatic }

end Program

end Concolic
