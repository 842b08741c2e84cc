import Concolic.Term.Kind

/-!
# Terms

A term is a symbolic expression: a kind, a type and a list of subterms. Any combination is a term;
the checked constructors of `Concolic.Term.Build` make the well-typed ones. The name of a term is
derived and never stored.

Two terms are the same (`==`) if they agree in the word of their kind, in name, in type, and
pairwise in their subterms. What a kind carries counts only as far as the name shows it, so two
calls of different methods with one name may be the same term.
-/

namespace Concolic

structure Term where
  kind : Kind
  ty : Ty
  subterms : List Term

namespace Term

mutual

/-- The derived name of a term. -/
def name : Term → String
  | ⟨kind, ty, subterms⟩ => kind.render ty (names subterms)

/-- The names of terms, in order. -/
def names : List Term → List String
  | [] => []
  | t :: ts => t.name :: names ts

end

mutual

/-- The terms agree in the word of their kind, in name, in type and in their subterms. -/
def same : Term → Term → Bool
  | ⟨k, t, subs⟩, ⟨k', t', subs'⟩ =>
    k.name == k'.name && k.render t (names subs) == k'.render t' (names subs') && t == t' &&
      sameAll subs subs'

/-- The lists agree term by term. -/
def sameAll : List Term → List Term → Bool
  | [], [] => true
  | a :: as, b :: bs => a.same b && sameAll as bs
  | _, _ => false

end

instance : BEq Term := ⟨same⟩

theorem beq_def (a b : Term) : (a == b) = a.same b := rfl

mutual

theorem same_refl : (t : Term) → t.same t = true
  | ⟨_, _, subs⟩ => by simp [same, sameAll_refl subs]

theorem sameAll_refl : (ts : List Term) → sameAll ts ts = true
  | [] => rfl
  | t :: ts => by simp [sameAll, same_refl t, sameAll_refl ts]

end

instance : ReflBEq Term := ⟨fun {t} => same_refl t⟩

/-- Name and type. -/
def debug (t : Term) : String := t.name ++ ": " ++ t.ty.text

def isConstant (t : Term) : Bool := t.kind.isConstant

def isNull (t : Term) : Bool := t.kind == .null

/-- The truth value of a boolean constant. -/
def bool? (t : Term) : Option Bool :=
  match t.kind with
  | .constBool b => some b
  | _ => none

/-- The value of an integral constant. -/
def int? (t : Term) : Option Int :=
  match t.kind with
  | .constByte n => some n.toInt
  | .constChar unit => some unit.toNat
  | .constShort n => some n.toInt
  | .constInt n => some n.toInt
  | .constLong n => some n.toInt
  | _ => none

/-- Separates the parts of a sort key. -/
def keySeparator : String := "\x01"

mutual

/-- A text that orders terms: by name, then word of the kind, then type, then subterms. -/
def sortKey : Term → String
  | ⟨kind, ty, subterms⟩ =>
    kind.render ty (names subterms) ++ keySeparator ++ kind.name ++ keySeparator ++ ty.text ++
      keySeparator ++ String.intercalate keySeparator (sortKeys subterms)

/-- The sort keys of terms, in order. -/
def sortKeys : List Term → List String
  | [] => []
  | t :: ts => t.sortKey :: sortKeys ts

end

end Term

end Concolic
