import Concolic.Hierarchy.Merge
import Concolic.Proofs.Hierarchy.Subtype
import Concolic.Proofs.Hierarchy.Superclass

/-!
# Merged pointers are upper bounds

Pointer types merge to one that is above all of them. It is one of them, or it is found in steps: a
common supertype of the first two, of that and the third, and so on. Each step gives an upper bound
of its two types (`bounds_commonSupertype`), and the earlier types stay below the later bounds
because subtyping is transitive (`isSubtype_foldl`).

Only references do not merge. A reference is no value, so it merges with itself and `null` alone
(`merge_fails_iff`).
-/

namespace Concolic

namespace Sample

def shape : ClassDecl := (ClassDecl.new "s/Shape").implementing "s/Drawable"

def circle : ClassDecl := (ClassDecl.new "s/Circle").extending "s/Shape"

def drawing : List ClassDecl := [shape, circle]

end Sample

namespace Hierarchy

variable {h : Hierarchy} {t u r : Ty} {rest types : List Ty}

/-- The types of objects and arrays. -/
def isInstance : Ty → Bool
  | .object _ | .array _ => true
  | _ => false

theorem isInstance_of_isPointer (hpointer : t.isPointer = true) (hnull : t ≠ .null)
    (hvalue : isNonValue t = false) : isInstance t = true := by
  cases t <;> simp_all [Ty.isPointer, isNonValue, isInstance]

theorem reference_of_isNonValue (hpointer : t.isPointer = true) (ht : isNonValue t = true) :
    ∃ u, t = .reference u := by
  cases t <;> simp_all [Ty.isPointer, isNonValue]

theorem isSubtype_root (ht : isInstance t = true) : h.isSubtype t Ty.root = true := by
  cases t with
  | object name => exact isSubtype_object_root name
  | array e => rfl
  | _ => cases ht

/-! ## Bounds of two types -/

variable (h) in
/-- The types of the superclasses of a class are those of the names that its declaration and theirs
give. -/
def NamesSuperclasses : Prop :=
  ∀ name limit, ∀ s ∈ h.superChain limit name, Ty.ofClassName s = .object s

variable (h) in
/-- The type is above both others, and one of an object or array. -/
structure Bounds (t u r : Ty) : Prop where
  left : h.isSubtype t r = true
  right : h.isSubtype u r = true
  isInstance : isInstance r = true

theorem bounds_root (ht : isInstance t = true) (hu : isInstance u = true) :
    h.Bounds t u Ty.root := ⟨isSubtype_root ht, isSubtype_root hu, rfl⟩

theorem bounds_commonSupertype (hnames : h.NamesSuperclasses) (ht : isInstance t = true)
    (hu : isInstance u = true) : h.Bounds t u (h.commonSupertype t u) := by
  unfold commonSupertype
  split
  · rename_i htu
    exact ⟨htu, isSubtype_refl u, hu⟩
  split
  · rename_i hut
    exact ⟨isSubtype_refl t, hut, ht⟩
  cases t with
  | object name =>
    dsimp only
    cases hfind : ((h.superChain (h.size + 1) name).map Ty.ofClassName).find?
        (h.isSubtype u ·) with
    | none => exact bounds_root ht hu
    | some r =>
      obtain ⟨s, hs, rfl⟩ := List.mem_map.mp (List.mem_of_find?_eq_some hfind)
      have hright := List.find?_some hfind
      rw [hnames name _ s hs] at hright ⊢
      have hreach := (List.pairwise_cons.mp (pairwise_reaches _ name)).1 s hs
      exact ⟨hreach.inherits, hright, rfl⟩
  | array e => exact bounds_root ht hu
  | _ => cases ht

/-! ## Bounds of many types -/

-- The bound so far stands for all types that it is above.
theorem isSubtype_foldl (hg : h.Grounded) (hnames : h.NamesSuperclasses)
    (hall : ∀ u ∈ t :: rest, isInstance u = true) :
    ∀ u ∈ t :: rest, h.isSubtype u (rest.foldl h.commonSupertype t) = true := by
  induction rest generalizing t with
  | nil =>
    intro u hu
    rw [List.mem_singleton.mp hu]
    exact isSubtype_refl t
  | cons v rest ih =>
    obtain ⟨ht, hv, hrest⟩ : isInstance t = true ∧ isInstance v = true ∧
        ∀ u ∈ rest, isInstance u = true := by simpa using hall
    have hbounds := bounds_commonSupertype hnames ht hv
    have habove := ih (List.forall_mem_cons.mpr ⟨hbounds.isInstance, hrest⟩)
    have hbound := habove _ List.mem_cons_self
    intro u hu
    rw [List.foldl_cons]
    rcases List.mem_cons.mp hu with rfl | hu
    · exact isSubtype_trans hg hbounds.left hbound
    · rcases List.mem_cons.mp hu with rfl | hu
      · exact isSubtype_trans hg hbounds.right hbound
      · exact habove u (List.mem_cons_of_mem _ hu)

theorem isSubtype_mergePointers (hg : h.Grounded) (hnames : h.NamesSuperclasses)
    (hall : ∀ u ∈ t :: rest, isInstance u = true) :
    ∀ u ∈ t :: rest, h.isSubtype u (h.mergePointers t rest) = true := by
  unfold mergePointers
  split
  · rename_i r hfind
    have habove := List.find?_some hfind
    exact List.all_eq_true.mp habove
  · exact isSubtype_foldl hg hnames hall

/-! ## Merging -/

/-- The different types of a list but `null`. -/
def distinct (types : List Ty) : List Ty := (types.filter (· != .null)).eraseDups

theorem mem_distinct : t ∈ distinct types ↔ t ∈ types ∧ t ≠ .null := by
  simp [distinct, List.mem_eraseDups]

theorem mem_of_distinct {us : List Ty} (hdistinct : distinct types = us) :
    ∀ u ∈ us, u ∈ types ∧ u ≠ .null := by
  intro u hu
  rw [← hdistinct] at hu
  exact mem_distinct.mp hu

private theorem ne_of_distinct (hdistinct : distinct types = t :: rest) : ∀ u ∈ rest, u ≠ t := by
  intro u hu
  unfold distinct at hdistinct
  cases hfilter : types.filter (· != .null) with
  | nil =>
    rw [hfilter, List.eraseDups_nil] at hdistinct
    cases hdistinct
  | cons a as =>
    rw [hfilter, List.eraseDups_cons] at hdistinct
    obtain ⟨rfl, rfl⟩ := List.cons.inj hdistinct
    simpa using (List.mem_filter.mp (List.mem_eraseDups.mp hu)).2

theorem merge_of_nil (hdistinct : distinct types = []) : h.merge types = .ok .null := by
  unfold distinct at hdistinct
  rw [merge, hdistinct]

theorem merge_of_single (hdistinct : distinct types = [t]) : h.merge types = .ok t := by
  unfold distinct at hdistinct
  rw [merge, hdistinct]

theorem merge_of_several (hpointer : ∀ t ∈ types, t.isPointer = true)
    (hdistinct : distinct types = t :: u :: rest) :
    h.merge types = if (t :: u :: rest).any isNonValue
      then typeFault (.mergeNonValues (t :: u :: rest))
      else .ok (h.mergePointers t (u :: rest)) := by
  have hall : (t :: u :: rest).all Ty.isPointer = true := by
    refine List.all_eq_true.mpr fun v hv => hpointer v ?_
    exact (mem_of_distinct hdistinct v hv).1
  unfold distinct at hdistinct
  rw [merge, hdistinct]
  simp only [hall, if_true]

theorem isSubtype_merge (hg : h.Grounded) (hnames : h.NamesSuperclasses)
    (hpointer : ∀ t ∈ types, t.isPointer = true) (hr : h.merge types = .ok r) :
    ∀ t ∈ types, h.isSubtype t r = true := by
  -- `null` is below every pointer, so the other types decide
  suffices habove : r.isPointer = true ∧ ∀ t ∈ distinct types, h.isSubtype t r = true by
    intro t ht
    by_cases hnull : t = .null
    · rw [hnull]
      exact isSubtype_iff_below.mpr (.null habove.1)
    · exact habove.2 t (mem_distinct.mpr ⟨ht, hnull⟩)
  rcases hdistinct : distinct types with _ | ⟨t, _ | ⟨u, rest⟩⟩
  · rw [merge_of_nil hdistinct] at hr
    cases hr
    exact ⟨rfl, fun t ht => absurd ht List.not_mem_nil⟩
  · rw [merge_of_single hdistinct] at hr
    obtain rfl : t = r := Except.ok.inj hr
    have ht := (mem_of_distinct hdistinct t List.mem_cons_self).1
    refine ⟨hpointer t ht, fun u hu => ?_⟩
    rw [List.mem_singleton.mp hu]
    exact isSubtype_refl t
  · rw [merge_of_several hpointer hdistinct] at hr
    split at hr
    · cases hr
    · rename_i hvalue
      cases hr
      rw [Bool.not_eq_true, List.any_eq_false] at hvalue
      have hmem := mem_of_distinct hdistinct
      have hall : ∀ v ∈ t :: u :: rest, isInstance v = true := by
        intro v hv
        have hnonvalue : isNonValue v = false := by simpa using hvalue v hv
        exact isInstance_of_isPointer (hpointer v (hmem v hv).1) (hmem v hv).2 hnonvalue
      have habove := isSubtype_mergePointers hg hnames hall
      have hfirst := below_of_isSubtype (habove t List.mem_cons_self)
      exact ⟨hfirst.isPointer (hpointer t (hmem t List.mem_cons_self).1), habove⟩

/-- A reference merges with nothing but itself and `null`; all other pointers merge. -/
theorem merge_fails_iff (hpointer : ∀ t ∈ types, t.isPointer = true) :
    (∃ e, h.merge types = .error e) ↔
      ∃ t u, .reference t ∈ types ∧ u ∈ types ∧ u ≠ .null ∧ u ≠ .reference t := by
  constructor
  · rintro ⟨e, he⟩
    rcases hdistinct : distinct types with _ | ⟨t, _ | ⟨u, rest⟩⟩
    · rw [merge_of_nil hdistinct] at he
      cases he
    · rw [merge_of_single hdistinct] at he
      cases he
    · rw [merge_of_several hpointer hdistinct] at he
      split at he
      · rename_i hany
        obtain ⟨v, hv, hnonvalue⟩ := List.any_eq_true.mp hany
        have hmem := mem_of_distinct hdistinct
        have hut : u ≠ t := ne_of_distinct hdistinct u List.mem_cons_self
        obtain ⟨w, rfl⟩ := reference_of_isNonValue (hpointer v (hmem v hv).1) hnonvalue
        -- the first two differ, so one of them is not the reference
        by_cases ht : t = .reference w
        · obtain ⟨hu, hnull⟩ := hmem u (List.mem_cons_of_mem _ List.mem_cons_self)
          exact ⟨w, u, (hmem _ hv).1, hu, hnull, ht ▸ hut⟩
        · obtain ⟨hmemt, hnull⟩ := hmem t List.mem_cons_self
          exact ⟨w, t, (hmem _ hv).1, hmemt, hnull, ht⟩
      · cases he
  · rintro ⟨t, u, ht, hu, hnull, hne⟩
    have ht' : Ty.reference t ∈ distinct types := mem_distinct.mpr ⟨ht, nofun⟩
    have hu' : u ∈ distinct types := mem_distinct.mpr ⟨hu, hnull⟩
    rcases hdistinct : distinct types with _ | ⟨v, _ | ⟨w, rest⟩⟩
    · rw [hdistinct] at hu'
      cases hu'
    · rw [hdistinct, List.mem_singleton] at ht' hu'
      exact absurd (hu'.trans ht'.symm) hne
    · rw [merge_of_several hpointer hdistinct]
      rw [hdistinct] at ht'
      have hany : (v :: w :: rest).any isNonValue = true := List.any_eq_true.mpr ⟨_, ht', rfl⟩
      rw [if_pos hany]
      exact ⟨_, rfl⟩

/-! ## Programs -/

/-- The root and the array interfaces keep their declarations. -/
theorem grounded_of_kept {cs : List ClassDecl}
    (hkept : ∀ a ∈ Ty.rootClass :: arrayInterfaces, (ofClasses cs).get? a = standard.get? a) :
    (ofClasses cs).Grounded where
  root b hb := by
    rw [parents_congr (hkept _ List.mem_cons_self), parents_standard_root] at hb
    cases hb
  interface i hi b hb := by
    rw [parents_congr (hkept i (List.mem_cons_of_mem _ hi)), parents_standard_interface i hi,
      List.mem_singleton] at hb
    rw [hb]
    exact List.mem_cons_self

/-- Let classes be declared on top of the standard ones, step by step from their names, without a
cycle of superclasses and without a new declaration of the root or an array interface. Pointer types
merge to a type that is above all of them. They fail to merge just if there is a reference among
them together with another type but `null`. The search for a common superclass ends with the chain
of superclasses and not at a limit of its length. -/
theorem merge_pointers_bound (cs : List ClassDecl) (hcs : ∀ c ∈ cs, c.Built)
    (hacyclic : (ofClasses cs).Acyclic)
    (hkept : ∀ a ∈ Ty.rootClass :: arrayInterfaces, (ofClasses cs).get? a = standard.get? a)
    (types : List Ty) (hpointer : ∀ t ∈ types, t.isPointer = true) :
    (∀ r, (ofClasses cs).merge types = .ok r → ∀ t ∈ types, (ofClasses cs).isSubtype t r = true) ∧
    ((∃ e, (ofClasses cs).merge types = .error e) ↔
      ∃ t u, .reference t ∈ types ∧ u ∈ types ∧ u ≠ .null ∧ u ≠ .reference t) ∧
    ∀ name limit, (ofClasses cs).size < limit →
      (ofClasses cs).superChain limit name =
        (ofClasses cs).superChain ((ofClasses cs).size + 1) name := by
  have hnames : (ofClasses cs).NamesSuperclasses :=
    fun name limit s hs => ofClassName_of_mem_superChain hcs hs
  refine ⟨fun r hr => ?_, merge_fails_iff hpointer, fun name limit hlimit => ?_⟩
  · exact isSubtype_merge (grounded_of_kept hkept) hnames hpointer hr
  · exact superChain_eq hacyclic hlimit name

theorem not_extends_root (b : String) : ¬ standard.Extends Ty.rootClass b := by
  intro hb
  have hparent := hb.mem_parents
  rw [parents_standard_root] at hparent
  cases hparent

theorem acyclic_drawing : (ofClasses Sample.drawing).Acyclic := by
  obtain ⟨hshape, hcircle, hne⟩ : Ty.rootClass ≠ Sample.shape.name ∧
      Ty.rootClass ≠ Sample.circle.name ∧ Sample.shape.name ≠ Sample.circle.name := by
    decide +kernel
  have hsuper {s : String} (hs : (ClassDecl.new "s/Shape").superClass = some s) :
      s = Ty.rootClass := ClassDecl.superClass_new hs
  have hfirst : (standard.insert Sample.shape).Acyclic := by
    refine acyclic_standard.insert fun s hs hback => ?_
    obtain rfl : s = Ty.rootClass := hsuper hs
    rcases hback.cases_head with heq | ⟨b, hb, -⟩
    · exact hshape heq
    · exact not_extends_root b hb
  refine hfirst.insert fun s hs hback => ?_
  obtain rfl : Sample.shape.name = s := Option.some.inj hs
  -- the chain of the circle: the shape, then the root
  rcases hback.cases_head with heq | ⟨b, hb, hback⟩
  · exact hne heq
  rcases extends_insert hb with ⟨-, hb⟩ | ⟨hother, -⟩
  · obtain rfl : b = Ty.rootClass := hsuper hb
    rcases hback.cases_head with heq | ⟨b, hb, -⟩
    · exact hcircle heq
    · rcases extends_insert hb with ⟨heq, -⟩ | ⟨-, hb⟩
      · exact hshape heq
      · exact not_extends_root b hb
  · exact hother rfl

/-- A circle, `null`, a text and an array of integers have a common supertype. -/
theorem merge_pointers_bound_drawing :
    let h := ofClasses Sample.drawing
    let types : List Ty := [.object "s/Circle", .null, Ty.string, .array .int]
    ((∀ c ∈ Sample.drawing, c.Built) ∧ h.Acyclic ∧
      (∀ a ∈ Ty.rootClass :: arrayInterfaces, h.get? a = standard.get? a) ∧
      ∀ t ∈ types, t.isPointer = true) ∧
    ∃ r, h.merge types = .ok r ∧ ∀ t ∈ types, h.isSubtype t r = true := by
  intro h types
  have hbuilt : ∀ c ∈ Sample.drawing, c.Built :=
    List.forall_mem_cons.mpr ⟨.implementing (.new _) _,
      List.forall_mem_singleton.mpr (.extending (.new _) _)⟩
  have hkept : ∀ a ∈ Ty.rootClass :: arrayInterfaces, h.get? a = standard.get? a := by
    have hnew : ∀ a ∈ Ty.rootClass :: arrayInterfaces, ∀ c ∈ Sample.drawing, a ≠ c.name := by
      decide +kernel
    exact fun a ha => get?_ofClasses_of_ne (hnew a ha)
  have hpointer : ∀ t ∈ types, t.isPointer = true := by decide
  refine ⟨⟨hbuilt, acyclic_drawing, hkept, hpointer⟩, ?_⟩
  obtain ⟨hbound, hfails, -⟩ :=
    merge_pointers_bound Sample.drawing hbuilt acyclic_drawing hkept types hpointer
  cases hmerge : h.merge types with
  | ok r => exact ⟨r, rfl, hbound r hmerge⟩
  | error e =>
    obtain ⟨t, -, ht, -⟩ := hfails.mp ⟨e, hmerge⟩
    simp [types, Ty.string] at ht

end Hierarchy

end Concolic
