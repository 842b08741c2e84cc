import Concolic.Ty.Basic
import Mathlib.Data.List.TakeDrop

/-!
# Types read off their text

The source spelling of a type is its class name or a word, with brackets behind it for an array and
a sign in front for a reference. It does not tell an array of references from a reference to an
array, a class that is named like a primitive from the primitive, or a class whose name ends in
brackets from an array. Apart from these it determines the type.

* `Ty.isSpelled`: there is no reference in the type, and a class in it has no such name.
* `text_inj`: such types have different texts.

Names of classes are kept with slashes for dots (`dot_notMem_slashed`), and a name without dots is
kept as it is (`slashed_eq_self`). So a dot behind a class name marks its end (`append_mark_inj`).
-/

namespace Concolic

/-! ## Names and marks -/

/-- A name ends where a mark that is not in it first stands. -/
theorem span_append_mark {name : List Char} {mark : Char} (hname : mark ∉ name)
    (rest : List Char) : (name ++ mark :: rest).span (· != mark) = (name, mark :: rest) := by
  have hall : ∀ c ∈ name, (c != mark) = true := by
    intro c hc
    simpa using fun heq : c = mark => hname (heq ▸ hc)
  rw [List.span_eq_takeWhile_dropWhile, List.takeWhile_append_of_pos hall,
    List.dropWhile_append_of_pos hall]
  simp

theorem append_mark_inj {name name' rest rest' : List Char} {mark : Char} (hname : mark ∉ name)
    (hname' : mark ∉ name') (h : name ++ mark :: rest = name' ++ mark :: rest') :
    name = name' ∧ rest = rest' := by
  have hspan := span_append_mark hname rest
  rw [h, span_append_mark hname' rest'] at hspan
  obtain ⟨rfl, htail⟩ := Prod.mk.inj hspan
  exact ⟨rfl, (List.cons.inj htail).2.symm⟩

theorem toList_slashed (name : String) :
    (slashed name).toList = name.toList.map fun c => if c = '.' then '/' else c :=
  String.toList_ofList

theorem dot_notMem_slashed (name : String) : '.' ∉ (slashed name).toList := by
  rw [toList_slashed, List.mem_map]
  rintro ⟨c, -, hc⟩
  split at hc
  · cases hc
  · contradiction

theorem slashed_eq_self {name : String} (h : '.' ∉ name.toList) : slashed name = name := by
  have hsame : ∀ c ∈ name.toList, (if c = '.' then '/' else c) = id c := by
    intro c hc
    refine if_neg ?_
    rintro rfl
    exact h hc
  rw [← String.toList_inj, toList_slashed, List.map_congr_left hsame, List.map_id]

theorem slashed_slashed (name : String) : slashed (slashed name) = slashed name :=
  slashed_eq_self (dot_notMem_slashed name)

namespace Ty

/-! ## Texts of types -/

/-- The types that are spelled by a word. -/
def keywords : List Ty :=
  [.void, .bool, .byte, .char, .short, .int, .long, .float, .double, .null]

/-- The text of the type says what it is. -/
def isSpelled : Ty → Bool
  | .object name => !name.toList.contains ']' && !(keywords.map text).contains name
  | .array t => t.isSpelled
  | .reference _ => false
  | _ => true

/-- The three sorts of types that are left. -/
inductive Spelled : Ty → Prop
  | keyword {t : Ty} (h : t ∈ keywords) : Spelled t
  | object {name : String} (hbracket : ']' ∉ name.toList) (hword : name ∉ keywords.map text) :
      Spelled (.object name)
  | array {e : Ty} (h : e.isSpelled = true) : Spelled (.array e)

variable {t u : Ty}

theorem spelled_of_isSpelled (h : t.isSpelled = true) : t.Spelled := by
  cases t with
  | object name =>
    simp only [isSpelled, Bool.and_eq_true, Bool.not_eq_true', List.contains_eq_mem,
      decide_eq_false_iff_not] at h
    exact .object h.1 h.2
  | array e => exact .array h
  | reference e => cases h
  | _ => exact .keyword (by decide)

private theorem keywords_text_inj :
    ∀ t ∈ keywords, ∀ u ∈ keywords, t.text = u.text → t = u := by decide

private theorem bracket_notMem_keyword : ∀ t ∈ keywords, ']' ∉ t.text.toList := by decide

theorem bracket_mem_array (e : Ty) : ']' ∈ (Ty.array e).text.toList := by
  rw [text, String.toList_append]
  exact List.mem_append_right _ (by decide)

private theorem keyword_eq_of_text (ht : t ∈ keywords) (hu : u.isSpelled = true)
    (h : t.text = u.text) : t = u := by
  cases spelled_of_isSpelled hu with
  | keyword hu => exact keywords_text_inj t ht u hu h
  | object hbracket hword => exact absurd (List.mem_map.mpr ⟨t, ht, h⟩) hword
  | array => exact absurd (h ▸ bracket_mem_array _) (bracket_notMem_keyword t ht)

private theorem array_ne_object {name : String} (e : Ty) (hname : ']' ∉ name.toList) :
    (Ty.array e).text ≠ (Ty.object name).text := by
  intro h
  have hmem : ']' ∈ (Ty.object name).text.toList := h ▸ bracket_mem_array e
  exact hname hmem

theorem text_inj (ht : t.isSpelled = true) (hu : u.isSpelled = true) (h : t.text = u.text) :
    t = u := by
  induction t generalizing u with
  | array e ih =>
    cases spelled_of_isSpelled hu with
    | keyword hword => exact (keyword_eq_of_text hword ht h.symm).symm
    | object hbracket => exact absurd h (array_ne_object e hbracket)
    | array he => rw [ih ht he ((String.append_left_inj _).mp h)]
  | object name =>
    cases spelled_of_isSpelled ht with
    | keyword hword => exact keyword_eq_of_text hword hu h
    | object hbracket =>
      cases spelled_of_isSpelled hu with
      | keyword hword => exact (keyword_eq_of_text hword ht h.symm).symm
      | object => exact congrArg Ty.object h
      | array => exact absurd h.symm (array_ne_object _ hbracket)
  | reference e => cases ht
  | _ => exact keyword_eq_of_text (by decide) hu h

example : (Ty.array (.reference .int)).text = (Ty.reference (.array .int)).text := by decide

end Ty

end Concolic
