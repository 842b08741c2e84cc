import Concolic.Tracer.Action

/-!
# Guards

A guard states a condition under which an instruction does not fail: a value is not null, has a
type, an index is within bounds, a length is reasonable. Null, index and length guards introduce a
truth value with a name of its own, define it, and fix it to what was observed. Each guard is stated
once per term.
-/

namespace Concolic.Tracer.Action

/-- Adds a decision that belongs to a guard. -/
def addDecision (check : Check) (i : Instruction) (p : Predicate) : Action Unit := do
  let c : PathClause := { check, instruction := i, predicate := p }
  addPath c
  addClause (.path c)

/-- Defines a truth value of the given name and fixes it to what was observed. -/
def guarded (check : Check) (i : Instruction) (name : String) (definition : Term)
    (observed : Bool) : Action Unit := do
  let g := Term.value .bool name
  addClause (.state i (i.effect.equality g definition))
  addDecision check i (i.decision.equality g (Term.bool observed))

/-- The value is null or not. -/
def guardNull (name : String) (checked : Operand) : Action Unit := start name do
  let i ← anyInstruction name
  let v ← value checked.name
  let term ← termOf v
  if v.isReceiver || term.isNull || (← get).nullChecked.contains term then pure ()
  else
    modify fun t => { t with nullChecked := term :: t.nullChecked }
    let definition ← Term.compare .eq term Term.null
    guarded .null i (term.name ++ "NullCheck") definition checked.observed.isNull

/-- The term is known to be of the type. -/
def isTyped (t : Tracer) (term : Term) (ty : Ty) : Bool :=
  match t.typeChecked.get? term with
  | some known => t.program.hierarchy.isSubtype known ty
  | none => false

/-- States whether a term is of a type. -/
def guardInstance (check : Check) (i : Instruction) (term : Term) (ty : Ty) (observed : Bool) :
    Action Unit := do
  modify fun t => { t with typeChecked := t.typeChecked.insert term ty }
  let tested ← Term.instanceOf term ty
  addDecision check i (i.decision.equality tested (Term.bool observed))

/-- The value is of the type that was observed. -/
def guardType (name : String) (checked : Operand) : Action Unit := start name do
  match checked.observed.type? with
  | none => pure ()
  | some actual =>
    let i ← anyInstruction name
    let term ← termOf (← value checked.name)
    if isTyped (← get) term actual then pure ()
    else guardInstance .overload i term actual true

/-- The value is of the expected type or not. -/
def guardExpectedType (name : String) (checked : Operand) (ty : String) : Action Unit := do
  let expected ← Ty.parse ty
  start name do
    let i ← anyInstruction name
    let v ← value checked.name
    if v = .constant .null then pure ()
    else
      let term ← termOf v
      let t ← get
      if isTyped t term expected then pure ()
      else
        let fits := match checked.observed.type? with
          | some actual => t.program.hierarchy.isSubtype actual expected
          | none => false
        guardInstance .type i term expected fits

/-- The index is below the length of the array or not. -/
def guardIndex (name : String) (array index : Operand) : Action Unit := start name do
  if array.observed.isNull then pure ()
  else
    let i ← anyInstruction name
    let a ← value array.name
    let k ← value index.name
    let a ← termOf a
    let k ← termOf k
    match index.observed.int? with
    | none => pure ()
    | some n =>
      if (← get).indexChecked.contains (a, k) then pure ()
      else
        modify fun t => { t with indexChecked := (a, k) :: t.indexChecked }
        let definition ← Term.compare .lt k (← Term.arrayLength a)
        let inBounds := n.toInt < (array.observed.length?.getD 0 : Nat)
        guarded .bounds i (a.name ++ "IndexCheck" ++ k.name) definition inBounds

/-- The length is not negative, and below the configured bound, or not. -/
def guardLength (name : String) (length : Operand) : Action Unit := start name do
  let i ← anyInstruction name
  let v ← value length.name
  if v.isConstant then pure ()
  else
    let term ← termOf v
    let t ← get
    if t.lengthChecked.contains term then pure ()
    else
      match length.observed.int? with
      | none => pure ()
      | some n =>
        modify fun t => { t with lengthChecked := term :: t.lengthChecked }
        let bound := t.config.maxArrayLength
        let definition ← Term.compare .ge term (Term.int 0)
        guarded .bounds i (term.name ++ "PositiveLengthCheck") definition (0 ≤ n.toInt)
        let definition ← Term.compare .lt term (Term.int bound)
        guarded .bounds i (term.name ++ "UpperBoundLengthCheck") definition
          (n.toInt < bound.toInt)

end Concolic.Tracer.Action
