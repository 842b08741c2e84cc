import Concolic.Proofs.Ty
import Concolic.Ty.Parse
import Mathlib.Data.List.TakeWhile

/-!
# Descriptors are a prefix code

The descriptor of a type is a letter for a primitive, a bracket before the descriptor of an element,
or a class name between `L` and the next semicolon.

* `Describes d t`: the grammar, with the type that a text stands for.
* `readDescriptor_iff`: reading takes a descriptor off the front of a text and leaves the rest. So
  what is read is determined by where it starts, and no descriptor is the beginning of another.
* `isDescribed`: the types that have a descriptor of their own. It is the only one without dots
  (`describes_descriptor`, `Describes.toList_descriptor`).
-/

namespace Concolic.Ty

/-- The types that are spelled by a letter. -/
def letters : List (Char × Ty) :=
  [('V', .void), ('Z', .bool), ('B', .byte), ('C', .char), ('S', .short), ('I', .int),
   ('J', .long), ('F', .float), ('D', .double)]

/-- The text is a descriptor of the type. -/
inductive Describes : List Char → Ty → Prop
  | letter {c : Char} {t : Ty} (hc : (c, t) ∈ letters) : Describes [c] t
  | array {d : List Char} {t : Ty} (hd : Describes d t) : Describes ('[' :: d) (.array t)
  | object {name : List Char} (hne : name ≠ []) (hname : ';' ∉ name) :
      Describes ('L' :: (name ++ [';'])) (.ofClassName (String.ofList name))

variable {d rest cs : List Char} {t u : Ty} {s : String}

/-! ## Reading -/

private theorem append_of_span {name after : List Char} {c : Char}
    (hspan : cs.span (· != ';') = (name, c :: after)) :
    ';' ∉ name ∧ c = ';' ∧ cs = name ++ ';' :: after := by
  rw [List.span_eq_takeWhile_dropWhile] at hspan
  obtain ⟨hname, hafter⟩ := Prod.mk.inj hspan
  have hsplit : name ++ c :: after = cs := by
    rw [← hname, ← hafter, List.takeWhile_append_dropWhile]
  have hc : c = ';' := by
    have hne : cs.dropWhile (· != ';') ≠ [] := by simp [hafter]
    have hhead := List.head_dropWhile_not (· != ';') hne
    simpa [hafter] using hhead
  refine ⟨fun hmem => ?_, hc, by rw [← hsplit, hc]⟩
  rw [← hname] at hmem
  simpa using List.mem_takeWhile_imp hmem

theorem Describes.read (hd : Describes d t) (rest : List Char) :
    readDescriptor (d ++ rest) = .ok (t, rest) := by
  induction hd with
  | letter hc =>
    simp only [letters, List.mem_cons, Prod.mk.injEq, List.not_mem_nil, or_false] at hc
    rcases hc with ⟨rfl, rfl⟩ | ⟨rfl, rfl⟩ | ⟨rfl, rfl⟩ | ⟨rfl, rfl⟩ | ⟨rfl, rfl⟩ | ⟨rfl, rfl⟩ |
      ⟨rfl, rfl⟩ | ⟨rfl, rfl⟩ | ⟨rfl, rfl⟩ <;> rfl
  | array _ ih =>
    rw [List.cons_append, readDescriptor, ih]
    rfl
  | @object name hne hname =>
    rw [List.cons_append, List.append_assoc, readDescriptor]
    simp only [List.singleton_append, span_append_mark hname]
    cases name with
    | nil => exact absurd rfl hne
    | cons c cs => rfl

theorem describes_of_read (hread : readDescriptor cs = .ok (t, rest)) :
    ∃ d, cs = d ++ rest ∧ Describes d t := by
  have hletter {c : Char} {u : Ty} {cs : List Char} (hc : (c, u) ∈ letters) {t : Ty}
      {rest : List Char} (heq : (Except.ok (u, cs) : Result (Ty × List Char)) = .ok (t, rest)) :
      ∃ d, c :: cs = d ++ rest ∧ Describes d t := by
    obtain ⟨rfl, rfl⟩ := Prod.mk.inj (Except.ok.inj heq)
    exact ⟨[c], rfl, .letter hc⟩
  fun_induction readDescriptor cs generalizing t rest with
  | case1 => cases hread
  | case2 | case3 | case4 | case5 | case6 | case7 | case8 | case9 | case10 =>
    exact hletter (by decide) hread
  | case11 cs ih =>
    cases helement : readDescriptor cs with
    | error e =>
      rw [helement] at hread
      cases hread
    | ok r =>
      obtain ⟨u, after⟩ := r
      rw [helement] at hread
      obtain ⟨rfl, rfl⟩ := Prod.mk.inj (Except.ok.inj hread)
      obtain ⟨d, rfl, hd⟩ := ih helement
      exact ⟨'[' :: d, rfl, .array hd⟩
  | case12 | case13 => cases hread
  | case14 cs c name semicolon after hspan =>
    obtain ⟨rfl, rfl⟩ := Prod.mk.inj (Except.ok.inj hread)
    obtain ⟨hname, rfl, rfl⟩ := append_of_span hspan
    refine ⟨'L' :: (c :: name ++ [';']), by simp, .object (List.cons_ne_nil c name) hname⟩
  | case15 => cases hread

theorem readDescriptor_iff :
    readDescriptor cs = .ok (t, rest) ↔ ∃ d, cs = d ++ rest ∧ Describes d t := by
  refine ⟨describes_of_read, ?_⟩
  rintro ⟨d, rfl, hd⟩
  exact hd.read rest

theorem ofDescriptor_iff : ofDescriptor s = .ok t ↔ Describes s.toList t := by
  have hwhole : ofDescriptor s = .ok t ↔ readDescriptor s.toList = .ok (t, []) := by
    unfold ofDescriptor
    cases hread : readDescriptor s.toList with
    | error e => exact ⟨nofun, nofun⟩
    | ok r =>
      obtain ⟨u, rest⟩ := r
      cases rest with
      | nil => simp [bind, Except.bind]
      | cons c rest => simp [bind, Except.bind, malformed]
  rw [hwhole, readDescriptor_iff]
  simp

/-- No descriptor is the beginning of another. -/
theorem Describes.eq_nil (hd : Describes d t) (hmore : Describes (d ++ rest) u) : rest = [] := by
  have hread := hd.read rest
  have hwhole := hmore.read []
  rw [List.append_nil, hread] at hwhole
  exact (Prod.mk.inj (Except.ok.inj hwhole)).2

/-! ## The types that are read -/

/-- The type has a descriptor of its own. -/
def isDescribed : Ty → Bool
  | .null | .reference _ => false
  | .object name => name != "" && !name.toList.contains ';' && !name.toList.contains '.'
  | .array t => t.isDescribed
  | _ => true

theorem isDescribed_object {name : String} : (Ty.object name).isDescribed = true ↔
    name ≠ "" ∧ ';' ∉ name.toList ∧ '.' ∉ name.toList := by
  simp [isDescribed, and_assoc]

theorem Describes.isDescribed (hd : Describes d t) : t.isDescribed = true := by
  induction hd with
  | letter hc =>
    have hall : ∀ p ∈ letters, p.2.isDescribed = true := by decide
    exact hall _ hc
  | array _ ih => exact ih
  | @object name hne hname =>
    refine isDescribed_object.mpr ⟨?_, ?_, dot_notMem_slashed _⟩
    · rw [Ne, ← String.toList_eq_nil_iff, toList_slashed, String.toList_ofList]
      simpa using hne
    · rw [toList_slashed, String.toList_ofList, List.mem_map]
      rintro ⟨c, hc, heq⟩
      split at heq
      · cases heq
      · exact hname (heq ▸ hc)

theorem toList_descriptor_array (t : Ty) :
    (Ty.array t).descriptor.toList = '[' :: t.descriptor.toList := by
  rw [descriptor, String.toList_append]
  rfl

theorem toList_descriptor_object (name : String) :
    (Ty.object name).descriptor.toList = 'L' :: (name.toList ++ [';']) := by
  rw [descriptor, String.toList_append, String.toList_append]
  rfl

/-- The descriptor that a type is written with is one that it is read from, with slashes. -/
theorem Describes.toList_descriptor (hd : Describes d t) :
    t.descriptor.toList = d.map fun c => if c = '.' then '/' else c := by
  induction hd with
  | letter hc =>
    have hall : ∀ p ∈ letters,
        p.2.descriptor.toList = [p.1].map fun c => if c = '.' then '/' else c := by decide
    exact hall _ hc
  | array _ ih => rw [toList_descriptor_array, ih, List.map_cons, if_neg (by decide)]
  | @object name =>
    rw [ofClassName, toList_descriptor_object, toList_slashed, String.toList_ofList, List.map_cons,
      List.map_append, if_neg (by decide)]
    rfl

theorem describes_descriptor (ht : t.isDescribed = true) : Describes t.descriptor.toList t := by
  induction t with
  | object name =>
    obtain ⟨hne, hname, hdot⟩ := isDescribed_object.mp ht
    have hnil : name.toList ≠ [] := fun hnil => hne (String.toList_eq_nil_iff.mp hnil)
    have hd := Describes.object hnil hname
    rwa [String.ofList_toList, ofClassName, slashed_eq_self hdot,
      ← toList_descriptor_object] at hd
  | array t ih =>
    rw [toList_descriptor_array]
    exact .array (ih ht)
  | null | reference => cases ht
  | _ => exact .letter (by decide)

/-! ## The codec -/

theorem ofDescriptor_append {s' : String} (hs : ofDescriptor s = .ok t)
    (hmore : ofDescriptor (s ++ s') = .ok u) : s' = "" := by
  rw [ofDescriptor_iff] at hs hmore
  rw [String.toList_append] at hmore
  exact String.toList_eq_nil_iff.mp (hs.eq_nil hmore)

/-- Reading gives back every type that has a descriptor of its own, and nothing but such types. The
descriptor of the type that was read is the text that was read, with slashes for dots. The texts
that are read are those of the grammar. If a text is read, no longer one that starts with it is, and
none of its beginnings. -/
theorem descriptor_codec :
    (∀ t : Ty, t.isDescribed = true → ofDescriptor t.descriptor = .ok t) ∧
    (∀ s t, ofDescriptor s = .ok t → t.isDescribed = true ∧ t.descriptor = slashed s) ∧
    (∀ s t, ofDescriptor s = .ok t ↔ Describes s.toList t) ∧
    (∀ s s' t, s' ≠ "" → ofDescriptor s = .ok t → ∃ e, ofDescriptor (s ++ s') = .error e) ∧
    ∀ s s' t, s' ≠ "" → ofDescriptor (s ++ s') = .ok t → ∃ e, ofDescriptor s = .error e := by
  refine ⟨fun t ht => ?_, fun s t hs => ?_, fun s t => ofDescriptor_iff, fun s s' t hne hs => ?_,
    fun s s' t hne hmore => ?_⟩
  · exact ofDescriptor_iff.mpr (describes_descriptor ht)
  · have hd := ofDescriptor_iff.mp hs
    refine ⟨hd.isDescribed, ?_⟩
    rw [← String.toList_inj, hd.toList_descriptor, toList_slashed]
  · cases hmore : ofDescriptor (s ++ s') with
    | error e => exact ⟨e, rfl⟩
    | ok u => exact absurd (ofDescriptor_append hs hmore) hne
  · cases hs : ofDescriptor s with
    | error e => exact ⟨e, rfl⟩
    | ok u => exact absurd (ofDescriptor_append hs hmore) hne

/-- A matrix of maps. -/
theorem descriptor_codec_matrix :
    let t : Ty := .array (.array (.object "java/util/Map"))
    t.isDescribed = true ∧ ofDescriptor t.descriptor = .ok t :=
  ⟨by decide, descriptor_codec.1 _ (by decide)⟩

example : ofDescriptor "[La.B;" = .ok (.array (.object "a/B")) := by decide +kernel

end Concolic.Ty
