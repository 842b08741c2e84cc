import Concolic.Config
import Concolic.Description.Basic
import Concolic.Table

/-!
# Describing observed values

`Observed.describe` copies a value within limits: objects and arrays nested deeper than the depth
limit become `null`, and an array keeps at most as many elements as the length limit allows. An
object or array that was described before in the same copy is not described again; its first
description is used.

`Observed.describeAs` also fits the copy to an expected primitive type: a box is opened, and a
number or truth value is converted as a cast would.
-/

namespace Concolic

namespace Observed

/-- The descriptions of the objects and arrays met so far, by identity. -/
abbrev Known := Table UInt64 Description

/-- Continues with what is known of an identity, or describes it unless it is nested too deep. -/
def describeOnce (limits : Limits) (depth : Nat) (id : UInt64)
    (describe : Known → Description × Known) (known : Known) : Description × Known :=
  match known.get? id with
  | some d => (d, known)
  | none =>
    if limits.depth ≤ depth then (.null, known)
    else
      let (d, known) := describe known
      (d, known.insert id d)

mutual

/-- Describes a value that is nested in `depth` objects and arrays. -/
def describeAt (limits : Limits) : Observed → (depth : Nat) → Known → Description × Known
  | .null, _, known => (.null, known)
  | .bool b, _, known => (.bool b, known)
  | .byte n, _, known => (.byte n, known)
  | .char unit, _, known => (.char unit, known)
  | .short n, _, known => (.short n, known)
  | .int n, _, known => (.int n, known)
  | .long n, _, known => (.long n, known)
  | .float x, _, known => (.float x, known)
  | .double x, _, known => (.double x, known)
  | .text _ s, _, known => (.string s, known)
  | .object id name fields, depth, known =>
    describeOnce limits depth id (fun known =>
      let (fields, known) := describeFields limits fields (depth + 1) known
      (.object id name fields, known)) known
  | .array id element elements, depth, known =>
    describeOnce limits depth id (fun known =>
      let (kept, known) := describeElements limits elements limits.arrayLength (depth + 1) known
      (.array id element elements.length kept, known)) known

/-- Describes the fields of an object in order. -/
def describeFields (limits : Limits) :
    List (String × Observed) → (depth : Nat) → Known → List (String × Description) × Known
  | [], _, known => ([], known)
  | (name, v) :: fields, depth, known =>
    let (d, known) := describeAt limits v depth known
    let (ds, known) := describeFields limits fields depth known
    ((name, d) :: ds, known)

/-- Describes the first elements of an array, at most `count`. -/
def describeElements (limits : Limits) :
    List Observed → (count depth : Nat) → Known → List Description × Known
  | [], _, _, known => ([], known)
  | _ :: _, 0, _, known => ([], known)
  | v :: vs, count + 1, depth, known =>
    let (d, known) := describeAt limits v depth known
    let (ds, known) := describeElements limits vs count depth known
    (d :: ds, known)

end

/-- The description of a value within the limits. -/
def describe (limits : Limits) (v : Observed) : Description := (describeAt limits v 0 ∅).1

end Observed

/-- A primitive as a value of another primitive type; integers wrap around and reals are cut off.
Descriptions of anything but primitives stay as they are. -/
def Description.coerce (d : Description) (expected : Ty) : Description :=
  if d.ty = expected then d
  else
    match d.double? with
    | none => d
    | some x =>
      let n := d.int?.getD x.toInt64
      match expected with
      | .bool => .bool (n != 0)
      | .byte => .byte n.toInt8
      | .char => .char n.toUInt64.toUInt16
      | .short => .short n.toInt16
      | .int => .int n.toInt32
      | .long => .long n
      | .float => .float (x.convert .single)
      | .double => .double x
      | _ => d

/-- The description of a value where the expected type is known. -/
def Observed.describeAs (limits : Limits) (v : Observed) (expected : Ty) : Description :=
  let d := v.describe limits
  if !expected.isPrimitive then d
  else
    match d with
    | .object _ _ _ =>
      match d.field? "value" with
      | some inner => inner.coerce expected
      | none => d
    | d => d.coerce expected

end Concolic
