import Concolic.Predicate.Build

/-!
# Operands of predicates

What each predicate is about: the terms that it is made of, in order. Predicates about calls and
stores are made of the call and of the reference themselves, once their kind was checked.
-/

namespace Concolic.Predicate.Context

variable {c : Context} {p : Predicate} {x y : Term} {xs : List Term}

@[simp] theorem operands_equality : (c.equality x y).operands = [x, y] := rfl

@[simp] theorem operands_defaultSwitch : (c.defaultSwitch x xs).operands = x :: xs := rfl

@[simp] theorem operands_newObject : (c.newObject x).operands = [x] := rfl

@[simp] theorem operands_newArray : (c.newArray x xs).operands = x :: xs := rfl

@[simp] theorem operands_caught : (c.caught x).operands = [x] := rfl

@[simp] theorem operands_thrown : (c.thrown x).operands = [x] := rfl

@[simp] theorem operands_enterMonitor : (c.enterMonitor x).operands = [x] := rfl

@[simp] theorem operands_exitMonitor : (c.exitMonitor x).operands = [x] := rfl

theorem operands_of_store (h : c.store x y = .ok p) : p.operands = [x, y] := by
  unfold store at h
  split at h
  · cases h; rfl
  · cases h; rfl
  · cases h

theorem operands_of_call {result : Option Term} (h : c.call result x = .ok p) :
    p.operands = result.toList ++ [x] := by
  unfold call at h
  split at h
  · cases h; rfl
  · cases h

end Concolic.Predicate.Context
