import Concolic.Proofs.Codec.Flags

/-!
# Types, methods and values read back

The leaves of what is written: types and methods are read as they were written without a condition,
constants and values if they are not numbers without a written form (`isStorable`).
-/

namespace Concolic

open Json

namespace Ty

/-- Every type is read as it was written. -/
@[simp] theorem ofJson?_sent (way : Leeway) (t : Ty) : ofJson? way t.toJson.sent = some t := by
  induction t with
  | object name =>
    rw [toJson, sent_tag, sent_str, ofJson?, word?_tag_bind _ _ (by decide), tagged?_tag]
    rfl
  | array element ih =>
    rw [toJson, sent_tag, ofJson?, word?_tag_bind _ _ (by decide), tagged?_tag]
    exact congrArg (Option.map Ty.array) ih
  | reference target ih =>
    rw [toJson, sent_tag, ofJson?, word?_tag_bind _ _ (by decide), tagged?_tag]
    exact congrArg (Option.map Ty.reference) ih
  | _ =>
    rw [toJson, sent_str, ofJson?]
    rfl

end Ty

@[simp] theorem Signature.ofJson?_sent (way : Leeway) (s : Signature) :
    ofJson? way s.toJson.sent = some s := by
  have hargs := list?_all fun t => Ty.ofJson?_sent way t
  rw [toJson, ofJson?, slots?_sent way (by rfl) (by decide)]
  simp [hargs, -sent_arr]

@[simp] theorem Method.ofJson?_sent (way : Leeway) (m : Method) :
    ofJson? way m.toJson.sent = some m := by
  rw [toJson, ofJson?, slots?_sent way (by rfl) (by decide)]
  simp [str?, parseFlags?_flagsText]

namespace Constant

/-- The constant has a written form: numbers that are not finite have none. -/
def isStorable : Constant → Bool
  | .float x => x.isFinite
  | .double x => x.isFinite
  | _ => true

theorem ofJson?_sent (way : Leeway) (c : Constant) :
    ofJson? way c.toJson.sent = keepIf c.isStorable c := by
  have hword {name : String} {j : Json} (h : name ≠ "Null") :
      (tag name j).word? way ≠ some "Null" := fun hword => h (eq_of_word?_tag hword)
  cases c with
  | null => rfl
  | float x =>
    rw [toJson, sent_tag, ofJson?, if_neg (hword (by decide)), tagged?_tag]
    simp [isStorable]
  | double x =>
    rw [toJson, sent_tag, ofJson?, if_neg (hword (by decide)), tagged?_tag]
    simp [isStorable]
  | _ =>
    rw [toJson, sent_tag, ofJson?, if_neg (hword (by decide)), tagged?_tag]
    simp [isStorable, bool?, str?]

end Constant

namespace Value

/-- The value has a written form. -/
def isStorable : Value → Bool
  | .argument index _ => decide (index < 2 ^ 64)
  | .constant c => c.isStorable
  | _ => true

theorem ofJson?_sent (way : Leeway) (v : Value) :
    ofJson? way v.toJson.sent = keepIf v.isStorable v := by
  cases v with
  | receiver t =>
    rw [toJson, sent_tag, ofJson?, tagged?_tag]
    simp [isStorable]
  | argument index t =>
    have hcarried : (obj [("index", nat index), ("ty", t.toJson)]).sent.carried? way
        ["index", "ty"] = _ := carried?_sent way rfl (by decide)
    rw [toJson, sent_tag, ofJson?, tagged?_tag]
    simp [hcarried, isStorable, -sent_obj]
  | constant c =>
    rw [toJson, sent_tag, ofJson?, tagged?_tag]
    simp [isStorable, Constant.ofJson?_sent]
  | result name t =>
    have hcarried : (obj [("name", str name), ("ty", t.toJson)]).sent.carried? way
        ["name", "ty"] = _ := carried?_sent way rfl (by decide)
    rw [toJson, sent_tag, ofJson?, tagged?_tag]
    simp [hcarried, isStorable, str?, -sent_obj]

end Value

theorem optional?_ofOption {file : Option String} :
    optional? str? (some (ofOption str file).sent) = some file := by
  cases file <;> rfl

@[simp] theorem Location.ofJson?_sent (way : Leeway) (l : Location) :
    ofJson? way l.toJson.sent = some l := by
  rw [toJson, ofJson?, slots?_sent way (by rfl) (by decide)]
  simp [optional?_ofOption]

end Concolic
