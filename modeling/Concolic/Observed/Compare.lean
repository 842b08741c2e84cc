import Concolic.Error
import Concolic.Observed.Basic
import Concolic.Operator

/-!
# Comparing observed values

What a comparison instruction yields on observed operands. Integral values compare as integers,
other numbers as doubles. References compare by identity and only for equality; text is a reference
too.
-/

namespace Concolic.Observed

/-- The outcome of an operator on an order; operands without an order are no numbers. -/
def decide (op : CompareOp) (order : Option Ordering) : Observed :=
  match op with
  | .eq => .bool (order == some .eq)
  | .neq => .bool (order != some .eq)
  | .lt => .bool (order == some .lt)
  | .gt => .bool (order == some .gt)
  | .le => .bool (order == some .lt || order == some .eq)
  | .ge => .bool (order == some .gt || order == some .eq)
  | .cmp | .cmpg | .cmpl =>
    match order with
    | some .lt => .int (-1)
    | some .eq => .int 0
    | some .gt => .int 1
    | none => .int (if op = .cmpl then -1 else 1)

/-- Whether two references are to one object; `none` if one of the values is no reference. -/
def identical? : Observed → Observed → Option Bool
  | .null, .null => some true
  | .text i _, .text j _ => some (i == j)
  | .object i _ _, .object j _ _ => some (i == j)
  | .array i _ _, .array j _ _ => some (i == j)
  | v, w => if v.isReference && w.isReference then some false else none

/-- The value of `v op w`. -/
def compare (op : CompareOp) (v w : Observed) : Result Observed :=
  match v.int?, w.int? with
  | some m, some n => .ok (decide op (some (Ord.compare m.toInt n.toInt)))
  | _, _ =>
    match v.double?, w.double? with
    | some x, some y => .ok (decide op (x.compare? y))
    | _, _ =>
      match identical? v w with
      | none => typeFault (.incomparableValues v.debug w.debug)
      | some same =>
        match op with
        | .eq => .ok (.bool same)
        | .neq => .ok (.bool !same)
        | op => typeFault (.orderedIdentities op.symbol)

end Concolic.Observed
