import Concolic.Proofs.Hierarchy
import Mathlib.Data.Finset.Basic
import Mathlib.Data.Fintype.EquivFin

/-!
# Subtyping is a preorder

Subtyping takes three things for granted that no declaration has to say: every class is below the
root, every array is below the root and the array interfaces, and `null` is below every pointer. If
the declarations do not contradict them, chains of subtypes compose.

* `Below`: the rules of subtyping, one for each reason why a type is below another
  (`isSubtype_iff_below`).
* `Grounded`: the root has no other supertype, and an array interface none but the root and array
  interfaces.
* `isSubtype_trans_iff`: subtyping is transitive just then. A class that nobody declared is below
  the root and nothing else, so whatever the root is put below breaks a chain; an array does the
  same for the interfaces.
* `inherits_isSubtype_preorder`: inheritance is reachability along the declarations, and subtyping
  is a preorder.
-/

namespace Concolic

namespace Sample

def cyclicClasses : List ClassDecl :=
  [(ClassDecl.new "a/A").extending "a/B", (ClassDecl.new "a/B").extending "a/A",
    ((ClassDecl.new "a/C").implementing "a/A").implementing "a/Unknown"]

def cyclic : Hierarchy := .ofClasses cyclicClasses

end Sample

namespace Hierarchy

/-! ## The rules -/

/-- Why a type is below another. -/
inductive Below (h : Hierarchy) : Ty → Ty → Prop
  | refl (t : Ty) : Below h t t
  | null {u : Ty} (hu : u.isPointer = true) : Below h .null u
  | object {a b : String} (hab : h.inherits a b = true) : Below h (.object a) (.object b)
  | supertype {t : Ty} {b : String} (hb : b ∈ Ty.rootClass :: arrayInterfaces) :
      Below h (.array t) (.object b)
  | array {t u : Ty} (ht : t.isPointer = true) (hu : u.isPointer = true) (htu : Below h t u) :
      Below h (.array t) (.array u)

variable {h : Hierarchy} {t u v : Ty} {a b c : String}

theorem isSubtype_refl (t : Ty) : h.isSubtype t t = true := by
  cases t <;> simp [isSubtype, inherits, Ty.isPointer]

theorem below_of_isSubtype (htu : h.isSubtype t u = true) : h.Below t u := by
  fun_induction isSubtype h t u with
  | case1 u => exact .null htu
  | case2 a b => exact .object htu
  | case3 t b => exact .supertype (by simpa using htu)
  | case4 t u ih =>
    simp only [Bool.or_eq_true, beq_iff_eq, Bool.and_eq_true] at htu
    rcases htu with rfl | ⟨⟨ht, hu⟩, htu⟩
    · exact .refl _
    · exact .array ht hu (ih htu)
  | case5 t u => exact beq_iff_eq.mp htu ▸ .refl t

theorem isSubtype_iff_below : h.isSubtype t u = true ↔ h.Below t u := by
  refine ⟨below_of_isSubtype, fun htu => ?_⟩
  induction htu with
  | refl t => exact isSubtype_refl t
  | null hu => simpa [isSubtype] using hu
  | object hab => simpa [isSubtype] using hab
  | supertype hb => simpa [isSubtype] using hb
  | array ht hu _ ih => simp [isSubtype, ht, hu, ih]

theorem Below.isPointer (htu : h.Below t u) (ht : t.isPointer = true) : u.isPointer = true := by
  cases htu with
  | refl => exact ht
  | null hu => exact hu
  | object | supertype | array => rfl

/-! ## Chains -/

variable (h) in
/-- The declarations agree with what holds of every class and of every array. -/
structure Grounded : Prop where
  root : ∀ b ∈ h.parents Ty.rootClass, b = Ty.rootClass
  interface : ∀ i ∈ arrayInterfaces, ∀ b ∈ h.parents i, b ∈ Ty.rootClass :: arrayInterfaces

theorem Reaches.eq_root (hg : h.Grounded) (hab : h.Reaches a b) (ha : a = Ty.rootClass) :
    b = Ty.rootClass := by
  induction hab with
  | refl => exact ha
  | tail _ hparent ih => exact hg.root _ (ih ▸ hparent)

/-- The types of all arrays are closed under declared supertypes. -/
theorem Reaches.mem_interfaces (hg : h.Grounded) (hab : h.Reaches a b)
    (ha : a ∈ Ty.rootClass :: arrayInterfaces) : b ∈ Ty.rootClass :: arrayInterfaces := by
  induction hab with
  | refl => exact ha
  | tail _ hparent ih =>
    rcases List.mem_cons.mp ih with rfl | hi
    · rw [hg.root _ hparent]
      exact List.mem_cons_self
    · exact hg.interface _ hi _ hparent

theorem inherits_trans (hg : h.Grounded) (hab : h.inherits a b = true)
    (hbc : h.inherits b c = true) : h.inherits a c = true := by
  rw [inherits_iff] at hab hbc ⊢
  rcases hbc with hroot | rfl | hbc
  · exact .inl hroot
  · exact hab
  · rcases hab with hroot | rfl | hab
    · exact .inl (hbc.eq_root hg hroot)
    · exact .inr (.inr hbc)
    · exact .inr (.inr (hab.trans hbc))

theorem mem_interfaces_of_inherits (hg : h.Grounded) (ha : a ∈ Ty.rootClass :: arrayInterfaces)
    (hab : h.inherits a b = true) : b ∈ Ty.rootClass :: arrayInterfaces := by
  rcases inherits_iff.mp hab with rfl | rfl | hab
  · exact List.mem_cons_self
  · exact ha
  · exact hab.mem_interfaces hg ha

-- By induction on why `t` is below `u`; only arrays of pointers go on inside.
theorem Below.trans (hg : h.Grounded) (htu : h.Below t u) (huv : h.Below u v) : h.Below t v := by
  induction htu generalizing v with
  | refl => exact huv
  | null hu => exact .null (huv.isPointer hu)
  | object hab =>
    cases huv with
    | refl => exact .object hab
    | object hbc => exact .object (inherits_trans hg hab hbc)
  | supertype hb =>
    cases huv with
    | refl => exact .supertype hb
    | object hbc => exact .supertype (mem_interfaces_of_inherits hg hb hbc)
  | array ht hu htu ih =>
    cases huv with
    | refl => exact .array ht hu htu
    | supertype hb => exact .supertype hb
    | array _ hv huv => exact .array ht hv (ih huv)

theorem isSubtype_trans (hg : h.Grounded) (htu : h.isSubtype t u = true)
    (huv : h.isSubtype u v = true) : h.isSubtype t v = true := by
  rw [isSubtype_iff_below] at htu huv ⊢
  exact htu.trans hg huv

/-- Nothing is declared about almost all names. -/
private theorem exists_undeclared (h : Hierarchy) (b : String) :
    ∃ a, a ≠ b ∧ a ∉ h.classes.keys := by
  have : Infinite String := Infinite.of_injective String.ofList fun _ _ => String.ofList_injective
  obtain ⟨a, ha⟩ := Infinite.exists_notMem_finset (b :: h.classes.keys).toFinset
  rw [List.mem_toFinset, List.mem_cons, not_or] at ha
  exact ⟨a, ha⟩

private theorem eq_of_reaches_undeclared (ha : a ∉ h.classes.keys) (hab : h.Reaches a b) :
    b = a := by
  rcases Relation.ReflTransGen.cases_head hab with rfl | ⟨c, hc, -⟩
  · rfl
  · exact absurd (mem_keys_of_mem_parents hc) ha

private theorem inherits_parent (hb : b ∈ h.parents a) : h.inherits a b = true :=
  Reaches.inherits (.single hb)

theorem grounded_of_trans (htrans : ∀ t u v, h.isSubtype t u = true → h.isSubtype u v = true →
    h.isSubtype t v = true) : h.Grounded where
  root b hb := by
    obtain ⟨a, hne, ha⟩ := exists_undeclared h b
    have hab : h.inherits a b = true :=
      htrans (.object a) Ty.root (.object b) (isSubtype_object_root a) (inherits_parent hb)
    rcases inherits_iff.mp hab with hroot | rfl | hab
    · exact hroot
    · exact absurd rfl hne
    · exact absurd (eq_of_reaches_undeclared ha hab).symm hne
  interface i hi b hb := by
    have hint : h.isSubtype (.array .int) (.object i) = true := by simp [isSubtype, hi]
    have hbelow := htrans (.array .int) (.object i) (.object b) hint (inherits_parent hb)
    simpa [isSubtype] using hbelow

theorem isSubtype_trans_iff :
    (∀ t u v, h.isSubtype t u = true → h.isSubtype u v = true → h.isSubtype t v = true) ↔
      h.Grounded :=
  ⟨grounded_of_trans, fun hg _ _ _ => isSubtype_trans hg⟩

/-! ## Declarations -/

private theorem get?_foldl_insert_of_ne {cs : List ClassDecl} (hne : ∀ c ∈ cs, a ≠ c.name) :
    (cs.foldl insert h).get? a = h.get? a := by
  induction cs generalizing h with
  | nil => rfl
  | cons c cs ih =>
    rw [List.foldl_cons, ih fun d hd => hne d (List.mem_cons_of_mem _ hd)]
    exact Table.get?_insert_of_ne h.classes c (hne c List.mem_cons_self)

/-- A class that is not declared anew keeps its declaration. -/
theorem get?_ofClasses_of_ne {cs : List ClassDecl} (hne : ∀ c ∈ cs, a ≠ c.name) :
    (ofClasses cs).get? a = standard.get? a := get?_foldl_insert_of_ne hne

theorem parents_congr {h' : Hierarchy} (heq : h.get? a = h'.get? a) :
    h.parents a = h'.parents a := by rw [parents, parents, heq]

theorem parents_standard_root : standard.parents Ty.rootClass = [] := by decide +kernel

theorem parents_standard_interface :
    ∀ i ∈ arrayInterfaces, standard.parents i = [Ty.rootClass] := by
  decide +kernel

/-! ## The preorder -/

/-- A class inherits from the root, from itself and from what finitely many declared supertypes lead
to, and from nothing else, whatever is declared; the search for them ends by itself, not at a limit
of steps. If the root is declared without supertypes and the array interfaces with no other than
the root, subtyping is reflexive and transitive. -/
theorem inherits_isSubtype_preorder (h : Hierarchy) :
    (∀ c a, h.inherits c a = true ↔ a = Ty.rootClass ∨ a = c ∨ h.Reaches c a) ∧
    (∀ c a steps, h.edges + 1 < steps →
      ∃ answer, Search.answer? h a steps (.start c) = some answer ∧
        (answer = true ↔ h.Reaches c a)) ∧
    (h.parents Ty.rootClass = [] → (∀ i ∈ arrayInterfaces, ∀ b ∈ h.parents i, b = Ty.rootClass) →
      (∀ t, h.isSubtype t t = true) ∧
      ∀ t u v, h.isSubtype t u = true → h.isSubtype u v = true → h.isSubtype t v = true) := by
  refine ⟨fun c a => inherits_iff, fun c a _ hsteps => Search.answer?_start hsteps c a, ?_⟩
  intro hroot hinterface
  have hgrounded : h.Grounded := by
    refine ⟨fun b hb => ?_, fun i hi b hb => ?_⟩
    · rw [hroot] at hb
      cases hb
    · rw [hinterface i hi b hb]
      exact List.mem_cons_self
  exact ⟨isSubtype_refl, isSubtype_trans_iff.mpr hgrounded⟩

/-- Two classes that extend each other, and a third that implements one of them and an interface
that is not declared. -/
theorem inherits_isSubtype_preorder_cyclic :
    let h := Sample.cyclic
    (h.parents Ty.rootClass = [] ∧ ∀ i ∈ arrayInterfaces, ∀ b ∈ h.parents i, b = Ty.rootClass) ∧
    (∀ t, h.isSubtype t t = true) ∧
    ∀ t u v, h.isSubtype t u = true → h.isSubtype u v = true → h.isSubtype t v = true := by
  have hkept : ∀ a ∈ Ty.rootClass :: arrayInterfaces,
      Sample.cyclic.parents a = standard.parents a := by
    intro a ha
    have hnew : ∀ a ∈ Ty.rootClass :: arrayInterfaces, ∀ c ∈ Sample.cyclicClasses, a ≠ c.name := by
      decide +kernel
    exact parents_congr (get?_ofClasses_of_ne (hnew a ha))
  have hroot : Sample.cyclic.parents Ty.rootClass = [] := by
    rw [hkept _ List.mem_cons_self, parents_standard_root]
  have hinterface : ∀ i ∈ arrayInterfaces, ∀ b ∈ Sample.cyclic.parents i, b = Ty.rootClass := by
    intro i hi b hb
    rw [hkept i (List.mem_cons_of_mem _ hi), parents_standard_interface i hi] at hb
    exact List.mem_singleton.mp hb
  exact ⟨⟨hroot, hinterface⟩, (inherits_isSubtype_preorder Sample.cyclic).2.2 hroot hinterface⟩

end Hierarchy

end Concolic
