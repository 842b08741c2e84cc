import Concolic.Codec.Record
import Concolic.Proofs.Codec.Description
import Concolic.Proofs.Codec.Term

/-!
# Records read back

A record is stored as text. It is read as it was written unless it holds a floating-point number
that is infinite or no number, or a position or a length beyond the 64 bits of a word: these have no
written form, and a record with one of them is refused as a whole.

* `Record.isStorable`: all parts of the record have a written form.
* `Record.read_write`: what is read of a record that was written.
-/

namespace Concolic

open Json

@[simp] theorem InstructionRef.ofJson?_sent (r : InstructionRef) :
    ofJson? r.toJson.sent = some r := by
  rw [toJson, ofJson?, slots?_sent Record.leeway (by rfl) (by decide)]
  simp [str?]

namespace ClauseRecord

/-- The predicate has a written form. -/
def isStorable (r : ClauseRecord) : Bool := r.predicate.isStorable

/-- Whether a clause has a check is seen from whether one was written. -/
theorem ofJson?_sent (r : ClauseRecord) : ofJson? r.toJson.sent = keepIf r.isStorable r := by
  obtain ⟨instruction, check, predicate⟩ := r
  cases check with
  | none =>
    have hslots : (toJson ⟨instruction, none, predicate⟩).sent.slots? Record.leeway
        ["instruction", "path", "predicate"] =
        some [some instruction.toJson.sent, none, some predicate.toJson.sent] := by
      simp [toJson, slots?_obj, field?]
    rw [ofJson?, hslots]
    simp [optional?, Predicate.ofJson?_sent, isStorable]
  | some check =>
    rw [toJson, ofJson?, slots?_sent Record.leeway (by rfl) (by decide)]
    simp [optional?, Check.ofJson?, Predicate.ofJson?_sent, isStorable]

end ClauseRecord

namespace OriginRecord

/-- Term and value have a written form. -/
def isStorable (r : OriginRecord) : Bool := r.term.isStorable && r.value.isStorable

theorem ofJson?_sent (r : OriginRecord) : ofJson? r.toJson.sent = keepIf r.isStorable r := by
  rw [toJson, ofJson?, slots?_sent Record.leeway (by rfl) (by decide)]
  simp [Term.ofJson?_sent, Value.ofJson?_sent, isStorable]

end OriginRecord

namespace Record

/-- The term and the concrete value have a written form. -/
def isConcreteStorable (e : Term × Description) : Bool := e.1.isStorable && e.2.isStorable

/-- The record has a written form: in all of its clauses, concrete values and origins the
floating-point numbers are finite, and the positions and lengths fit a word. -/
def isStorable (r : Record) : Bool :=
  r.clauses.all ClauseRecord.isStorable && r.path.all ClauseRecord.isStorable &&
    r.concrete.all isConcreteStorable && r.origins.all OriginRecord.isStorable

theorem concreteOfJson?_sent (e : Term × Description) :
    concreteOfJson? (arr [e.1.toJson, e.2.toJson]).sent = keepIf (isConcreteStorable e) e := by
  rw [sent_arr, List.map_cons, List.map_cons, List.map_nil, concreteOfJson?]
  simp [pair?, Leeway.fits, Term.ofJson?_sent, Description.ofJson?_sent, isConcreteStorable]

theorem ofJson?_sent (r : Record) : ofJson? r.toJson.sent = keepIf r.isStorable r := by
  have hclauses := list?_sent fun c (_ : c ∈ r.clauses) => c.ofJson?_sent
  have hpath := list?_sent fun c (_ : c ∈ r.path) => c.ofJson?_sent
  have hconcrete := list?_sent fun e (_ : e ∈ r.concrete) => concreteOfJson?_sent e
  have horigins := list?_sent fun o (_ : o ∈ r.origins) => o.ofJson?_sent
  rw [toJson, ofJson?, slots?_sent Record.leeway (by rfl) (by decide)]
  simp [hclauses, hpath, hconcrete, horigins, isStorable, Bool.and_assoc, -sent_arr]

/-- A record is read as it was written: every clause, term, type, method, value, constant, location
and description in it, whatever their nesting, with what was left out in writing put back. The only
records for which this fails are those with a part that has no written form, and they are refused.
-/
theorem read_write (r : Record) :
    read r.write = if r.isStorable then .ok r else .error .unreadable := by
  have hscan : scan? r.write = some r.toJson.sent := scan?_write r.toJson
  rw [read, hscan, Option.bind_some, ofJson?_sent]
  cases r.isStorable <;> rfl

end Record

end Concolic
