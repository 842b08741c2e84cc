import Concolic.Codec.Description
import Concolic.Codec.Term
import Concolic.Json.Write
import Concolic.Record

/-!
# Records of summaries as documents

`Record.write` and `Record.read` are the stored form of a summary: one document without blanks. What
a record does not ask for needs the form of a document only, and each decimal is rounded once, in
the precision it is stored in.
-/

namespace Concolic

/-- The fields of an alternative may be an array. -/
def Record.leeway : Json.Leeway := { surplus := false, listed := true, hollow := false }

namespace InstructionRef

def toJson (r : InstructionRef) : Json := .obj [("method", .str r.method), ("name", .str r.name)]

def ofJson? (j : Json) : Option InstructionRef := do
  match ← j.slots? Record.leeway ["method", "name"] with
  | [some method, some name] => some ⟨← method.str?, ← name.str?⟩
  | _ => none

end InstructionRef

def Check.ofJson? (j : Json) : Option Check := (j.word? Record.leeway).bind Check.ofName?

namespace ClauseRecord

/-- The check is left out where there is none. -/
def toJson (r : ClauseRecord) : Json :=
  let check := match r.check with
    | some check => [("path", Json.str check.name)]
    | none => []
  .obj ([("instruction", r.instruction.toJson)] ++ check ++ [("predicate", r.predicate.toJson)])

def ofJson? (j : Json) : Option ClauseRecord := do
  match ← j.slots? Record.leeway ["instruction", "path", "predicate"] with
  | [some instruction, check, some predicate] =>
    some ⟨← InstructionRef.ofJson? instruction, ← Json.optional? Check.ofJson? check,
      ← Predicate.ofJson? Record.leeway predicate⟩
  | _ => none

end ClauseRecord

namespace OriginRecord

def toJson (r : OriginRecord) : Json :=
  .obj [("term", r.term.toJson), ("method", r.method.toJson), ("value", r.value.toJson)]

def ofJson? (j : Json) : Option OriginRecord := do
  match ← j.slots? Record.leeway ["term", "method", "value"] with
  | [some term, some method, some value] =>
    some ⟨← Term.ofJson? Record.leeway term, ← Method.ofJson? Record.leeway method,
      ← Value.ofJson? Record.leeway value⟩
  | _ => none

end OriginRecord

namespace Record

/-- Reads a term with its concrete value. -/
def concreteOfJson? (j : Json) : Option (Term × Description) := do
  let (term, d) ← j.pair? leeway
  some (← Term.ofJson? leeway term.1, ← Description.ofJson? leeway d.1)

def toJson (r : Record) : Json :=
  .obj [("clauses", .arr (r.clauses.map ClauseRecord.toJson)),
    ("path", .arr (r.path.map ClauseRecord.toJson)),
    ("concrete_values", .arr (r.concrete.map fun (t, d) => .arr [t.toJson, d.toJson])),
    ("term_map", .arr (r.origins.map OriginRecord.toJson))]

def ofJson? (j : Json) : Option Record := do
  match ← j.slots? Record.leeway ["clauses", "path", "concrete_values", "term_map"] with
  | [some clauses, some path, some concrete, some origins] =>
    some ⟨← clauses.list? ClauseRecord.ofJson?, ← path.list? ClauseRecord.ofJson?,
      ← concrete.list? concreteOfJson?, ← origins.list? OriginRecord.ofJson?⟩
  | _ => none

def write (r : Record) : String := r.toJson.write

def read (s : String) : Result Record :=
  match (Json.scan? s).bind ofJson? with
  | some r => .ok r
  | none => .error .unreadable

end Record

end Concolic
