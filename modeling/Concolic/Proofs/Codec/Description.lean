import Concolic.Codec.Description
import Concolic.Proofs.Codec.Value

/-!
# Descriptions read back

A description nests: the fields of an object and the elements of an array are descriptions. It is
read as it was written if all numbers in it are (`isStorable`), that is, if none is infinite or not
a number. `ofJson?_sent` says so together with its two versions for lists, along the nesting.
-/

namespace Concolic.Description

open Json

mutual

/-- The numbers in the description have a written form. -/
def isStorable : Description → Bool
  | .float x => x.isFinite
  | .double x => x.isFinite
  | .object _ _ fields => isStorableFields fields
  | .array _ _ length elements => decide (length < 2 ^ 64) && isStorableAll elements
  | _ => true

def isStorableFields : List (String × Description) → Bool
  | [] => true
  | (_, d) :: fields => d.isStorable && isStorableFields fields

def isStorableAll : List Description → Bool
  | [] => true
  | d :: ds => d.isStorable && isStorableAll ds

end

/-- Reads a field of an object. -/
def fieldOfJson? (way : Leeway) (j : Json) : Option (String × Description) :=
  match j.pair? way with
  | some (name, value) => do some (← name.1.str?, ← ofJson? way value.1)
  | none => none

/-- What stands in a tag of another name is not `null`. -/
theorem word?_tag_ne_null {way : Leeway} {name : String} {j : Json} (h : name ≠ "Null") :
    (tag name j).word? way ≠ some "Null" := fun hword => h (eq_of_word?_tag hword)

theorem ofJson?_object {way : Leeway} {body id name : Json} {fields : List Json}
    (h : body.slots? way ["id", "class", "fields"] =
      some [some id, some name, some (arr fields)]) :
    ofJson? way (tag "Object" body) = (do
      let fields ← fields.mapM (fieldOfJson? way)
      some (.object (← id.uint64?) (← name.str?) fields)) := by
  obtain ⟨parts, hparts, hval⟩ := record?_of_slots? h
  obtain ⟨i, parts₁, rfl, rfl, hval₁⟩ := exists_part hval
  obtain ⟨n, parts₂, rfl, rfl, hval₂⟩ := exists_part hval₁
  obtain ⟨⟨f, hf⟩, parts₃, rfl, rfl, hval₃⟩ := exists_part hval₂
  obtain rfl := List.map_eq_nil_iff.mp hval₃
  rw [ofJson?, if_neg (word?_tag_ne_null (by decide)), tagged?_tag]
  simp only [hparts]
  rw [← mapElements?_arr fields (fieldOfJson? way)]
  congr 2
  funext part
  unfold fieldOfJson?
  cases part.1.pair? way <;> rfl

theorem ofJson?_array {way : Leeway} {body id element length : Json} {elements : List Json}
    (h : body.slots? way ["id", "element", "length", "elements"] =
      some [some id, some element, some length, some (arr elements)]) :
    ofJson? way (tag "Array" body) = (do
      let elements ← elements.mapM (ofJson? way)
      some (.array (← id.uint64?) (← Ty.ofJson? way element) (← length.nat? 64) elements)) := by
  obtain ⟨parts, hparts, hval⟩ := record?_of_slots? h
  obtain ⟨i, parts₁, rfl, rfl, hval₁⟩ := exists_part hval
  obtain ⟨t, parts₂, rfl, rfl, hval₂⟩ := exists_part hval₁
  obtain ⟨l, parts₃, rfl, rfl, hval₃⟩ := exists_part hval₂
  obtain ⟨⟨e, he⟩, parts₄, rfl, rfl, hval₄⟩ := exists_part hval₃
  obtain rfl := List.map_eq_nil_iff.mp hval₄
  rw [ofJson?, if_neg (word?_tag_ne_null (by decide)), tagged?_tag]
  simp only [hparts]
  rw [← mapElements?_arr elements (ofJson? way)]

mutual

/-- A description of any depth is read as it was written, if all of its numbers are. -/
theorem ofJson?_sent (way : Leeway) : (d : Description) →
    ofJson? way d.toJson.sent = keepIf d.isStorable d
  | .object id name fields => by
    have hslots : (obj [("id", nat id.toNat), ("class", str name),
        ("fields", arr (toJsonFields fields))]).sent.slots? way ["id", "class", "fields"] = _ :=
      slots?_sent way rfl (by decide)
    rw [List.map_cons, List.map_cons, List.map_cons, sent_arr] at hslots
    rw [toJson, sent_tag, ofJson?_object hslots, mapM_fieldOfJson?_sent way fields]
    simp [isStorable, str?]
  | .array id element length elements => by
    have hslots : (obj [("id", nat id.toNat), ("element", element.toJson), ("length", nat length),
        ("elements", arr (toJsonAll elements))]).sent.slots? way
          ["id", "element", "length", "elements"] = _ := slots?_sent way rfl (by decide)
    rw [List.map_cons, List.map_cons, List.map_cons, List.map_cons, sent_arr] at hslots
    rw [toJson, sent_tag, ofJson?_array hslots, mapM_ofJson?_sent way elements]
    simp [isStorable, Bool.and_comm]
  | .null => by
    rw [toJson, sent_str, ofJson?]
    rfl
  | .bool _ | .byte _ | .char _ | .short _ | .int _ | .long _ | .float _ | .double _ | .string _
  | .classLit _ => by
    rw [toJson, sent_tag, ofJson?, if_neg (word?_tag_ne_null (by decide)), tagged?_tag]
    simp [ofScalar?, isStorable, Json.bool?, str?]

theorem mapM_fieldOfJson?_sent (way : Leeway) : (fields : List (String × Description)) →
    ((toJsonFields fields).map sent).mapM (fieldOfJson? way) =
      keepIf (isStorableFields fields) fields
  | [] => rfl
  | (name, d) :: fields => by
    have hfield : fieldOfJson? way (arr [str name, d.toJson]).sent =
        keepIf d.isStorable (name, d) := by
      rw [sent_arr, List.map_cons, List.map_cons, List.map_nil, sent_str, fieldOfJson?]
      simp [pair?, Leeway.fits, str?, ofJson?_sent way d]
    rw [toJsonFields, List.map_cons, List.mapM_cons, hfield, mapM_fieldOfJson?_sent way fields]
    simp [isStorableFields]

theorem mapM_ofJson?_sent (way : Leeway) : (ds : List Description) →
    ((toJsonAll ds).map sent).mapM (ofJson? way) = keepIf (isStorableAll ds) ds
  | [] => rfl
  | d :: ds => by
    rw [toJsonAll, List.map_cons, List.mapM_cons, ofJson?_sent way d, mapM_ofJson?_sent way ds]
    simp [isStorableAll]

end

end Concolic.Description
