import Concolic.Hierarchy.Basic

/-!
# Inheritance and subtyping

Whether a class inherits from another is found by a search along the declared supertypes. Names wait
in a queue, and when one is taken off it for the first time, its parents are put behind the others
(`Search.step`). A name that was visited is not expanded again, cyclic declarations included, so no
more names are put into the queue than there are declared supertypes (`edges`). The search ends
within so many steps and two more: one for the class itself, and one to see that the queue is empty.

Subtyping of types follows from it: `null` is below every pointer type, an array below the root
class and the array interfaces, and arrays of pointers are covariant.

Walks up the superclasses take at most one step more than there are declared classes. A line of
superclasses without a cycle has ended by then, and on a cycle `findField?` has seen every class.
`commonSupertype` is meant for superclasses without a cycle: if they form one and no class on it
matches, the walk as such never returns, and only the limit makes it end, with the root.
-/

namespace Concolic.Hierarchy

/-- The declared direct supertypes of a class; none for a class that is not declared. -/
def parents (h : Hierarchy) (name : String) : List String :=
  match h.get? name with
  | some c => c.parents
  | none => []

/-- A search for an ancestor: the names that were expanded, and those that wait, the next one
first. -/
structure Search where
  visited : List String
  queue : List String

namespace Search

/-- The search from a class on. -/
def start (name : String) : Search := ⟨[], [name]⟩

/-- Takes a name off the queue. The search goes on, or it ends with an answer. -/
def step (h : Hierarchy) (ancestor : String) (s : Search) : Search ⊕ Bool :=
  match s.queue with
  | [] => .inr false
  | name :: rest =>
    if name == ancestor then .inr true
    else if s.visited.contains name then .inl ⟨s.visited, rest⟩
    else .inl ⟨name :: s.visited, rest ++ h.parents name⟩

/-- The answer of a search, if it ends within the given number of steps. -/
def answer? (h : Hierarchy) (ancestor : String) : (steps : Nat) → Search → Option Bool
  | 0, _ => none
  | steps + 1, s =>
    match s.step h ancestor with
    | .inl s => answer? h ancestor steps s
    | .inr answer => some answer

end Search

/-- The number of declared direct supertypes of all classes. -/
def edges (h : Hierarchy) : Nat := (h.classes.entries.flatMap fun e => e.2.parents).length

/-- The class is the other one or inherits from it; every class inherits from the root. -/
def inherits (h : Hierarchy) (name ancestor : String) : Bool :=
  name == ancestor || ancestor == Ty.rootClass ||
    (Search.answer? h ancestor (h.edges + 2) (.start name)).getD false

/-- Every value of the first type is a value of the second. -/
def isSubtype (h : Hierarchy) : Ty → Ty → Bool
  | .null, u => u.isPointer
  | .object name, .object other => h.inherits name other
  | .array _, .object other => other == Ty.rootClass || arrayInterfaces.contains other
  | .array t, .array u => t == u || (t.isPointer && u.isPointer && h.isSubtype t u)
  | t, u => t == u

/-- The superclasses of a class from the nearest on, at most `limit` of them. -/
def superChain (h : Hierarchy) : (limit : Nat) → String → List String
  | 0, _ => []
  | limit + 1, name =>
    match (h.get? name).bind (·.superClass) with
    | some parent => parent :: superChain h limit parent
    | none => []

/-- The nearest type above both: one of them, or the first superclass of the first type that is
above the second. -/
def commonSupertype (h : Hierarchy) (t u : Ty) : Ty :=
  if h.isSubtype t u then u
  else if h.isSubtype u t then t
  else
    match t with
    | .object name =>
      let candidates := (h.superChain (h.size + 1) name).map Ty.ofClassName
      (candidates.find? (h.isSubtype u ·)).getD Ty.root
    | _ => Ty.root

/-- The class that declares a field of the given name and type, going up the superclasses; the walk
ends at a class that is not declared. -/
def findField? (h : Hierarchy) (name : String) (ty : Ty) :
    (limit : Nat) → String → Option (String × FieldDecl)
  | 0, _ => none
  | limit + 1, owner => do
    let c ← h.get? owner
    match c.fields.find? fun d => d.name == name && d.ty == ty with
    | some d => some (c.name, d)
    | none => findField? h name ty limit (← c.superClass)

/-- The field that an access through `owner` refers to, with the class that declares it. -/
def field? (h : Hierarchy) (owner name : String) (ty : Ty) : Option (String × FieldDecl) :=
  h.findField? name ty (h.size + 1) owner

end Concolic.Hierarchy
