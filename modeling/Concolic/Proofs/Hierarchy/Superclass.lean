import Concolic.Proofs.Hierarchy
import Concolic.Proofs.Ty
import Mathlib.Data.List.Perm.Subperm

/-!
# Superclasses

* **Declared names** (`ClassDecl.Built`): a declaration that was made step by step from a name has
  slashes in the name of its superclass, so the types that a walk up the superclasses looks at are
  those of the declared classes (`ofClassName_of_mem_superChain`).
* **Walks** (`Acyclic`): if no class is its own superclass, however far up, the limit of a walk is
  never what ends it (`superChain_eq`): the walk meets each declared class at most once.
* Chains stay acyclic when a class is declared whose superclass does not lead back to it
  (`Acyclic.insert`), and those of the standard classes are (`acyclic_standard`).
-/

namespace Concolic

private theorem slashed_rootClass :
    slashed Ty.rootClass = Ty.rootClass := slashed_eq_self (by decide)

namespace ClassDecl

/-- Declarations that were made step by step from a name. -/
inductive Built : ClassDecl → Prop
  | new (name : String) : Built (.new name)
  | extending {c : ClassDecl} (hc : Built c) (superClass : String) :
      Built (c.extending superClass)
  | implementing {c : ClassDecl} (hc : Built c) (interface : String) :
      Built (c.implementing interface)
  | withFlags {c : ClassDecl} (hc : Built c) (flags : UInt32) : Built (c.withFlags flags)
  | withField {c : ClassDecl} (hc : Built c) (name : String) (ty : Ty) (isStatic : Bool) :
      Built (c.withField name ty isStatic)

theorem superClass_new {name s : String} (hs : (ClassDecl.new name).superClass = some s) :
    s = Ty.rootClass := by
  unfold new at hs
  dsimp only at hs
  split at hs
  · cases hs
  · exact (Option.some.inj hs).symm

private theorem superClass_boxing (c : ClassDecl) (primitive : Ty) :
    (c.boxing primitive).superClass = c.superClass := rfl

theorem Built.slashed_superClass {c : ClassDecl} (hc : c.Built) {s : String}
    (hs : c.superClass = some s) : slashed s = s := by
  induction hc with
  | new name =>
    rw [superClass_new hs]
    exact slashed_rootClass
  | extending _ superClass =>
    rw [← Option.some.inj hs]
    exact slashed_slashed superClass
  | implementing _ _ ih | withFlags _ _ ih | withField _ _ _ _ ih => exact ih hs

end ClassDecl

namespace Hierarchy

variable {h : Hierarchy} {a b s : String}

/-! ## Declared names -/

theorem built_standard : ∀ c ∈ standardClasses, c.Built := by
  have hbox {c : ClassDecl} (hc : c.Built) (primitive : Ty) : (c.boxing primitive).Built :=
    (hc.withFlags _).withField _ _ _
  intro c hc
  simp only [standardClasses, boxes, List.mem_append, List.mem_map, List.mem_cons,
    List.not_mem_nil, or_false] at hc
  rcases hc with ((⟨name, -, rfl⟩ | hc) | ⟨⟨name, parent⟩, -, rfl⟩) | ⟨name, -, rfl⟩
  · exact .new name
  · rcases hc with rfl | rfl | rfl | rfl | rfl | rfl | rfl | rfl
    · exact hbox (.new _) _
    · exact hbox (.new _) _
    all_goals exact hbox (.extending (.new _) _) _
  · exact .extending (.new name) parent
  · exact .withFlags (.new name) _

private theorem mem_foldl_insert {cs : List ClassDecl} {e : String × ClassDecl}
    (he : e ∈ (cs.foldl insert h).classes.entries) : e.2 ∈ cs ∨ e ∈ h.classes.entries := by
  induction cs generalizing h with
  | nil => exact .inr he
  | cons c cs ih =>
    rcases ih he with he | he
    · exact .inl (List.mem_cons_of_mem c he)
    · rcases Table.mem_insert he with rfl | he
      · exact .inl List.mem_cons_self
      · exact .inr he

theorem built_of_get? {cs : List ClassDecl} (hcs : ∀ c ∈ cs, c.Built) {c : ClassDecl}
    (hc : (ofClasses cs).get? a = some c) : c.Built := by
  rcases mem_foldl_insert (Table.mem_entries_of_get? hc) with hmem | hmem
  · exact hcs c hmem
  · obtain ⟨d, hd, heq⟩ := List.mem_map.mp hmem
    obtain ⟨-, rfl⟩ := Prod.mk.inj heq
    exact built_standard d hd

private theorem exists_extends_of_mem_superChain {limit : Nat} (hs : s ∈ h.superChain limit a) :
    ∃ b, h.Extends b s := by
  induction limit generalizing a with
  | zero => cases hs
  | succ limit ih =>
    unfold superChain at hs
    split at hs
    · rename_i parent hparent
      rcases List.mem_cons.mp hs with rfl | hs
      · exact ⟨a, hparent⟩
      · exact ih hs
    · cases hs

/-- The type of a superclass is looked up under the name by which the superclass is declared. -/
theorem ofClassName_of_mem_superChain {cs : List ClassDecl} (hcs : ∀ c ∈ cs, c.Built)
    {limit : Nat} (hs : s ∈ (ofClasses cs).superChain limit a) : Ty.ofClassName s = .object s := by
  obtain ⟨b, hb⟩ := exists_extends_of_mem_superChain hs
  obtain ⟨c, hc, hsuper⟩ := Option.bind_eq_some_iff.mp hb
  rw [Ty.ofClassName, (built_of_get? hcs hc).slashed_superClass hsuper]

/-! ## Walks -/

variable (h) in
/-- No class is its own superclass, however far up. -/
def Acyclic : Prop := ∀ a, ¬ Relation.TransGen h.Extends a a

/-- All classes of a walk but the last are declared. -/
private theorem mem_keys_of_mem_dropLast {limit : Nat}
    (hb : b ∈ (a :: h.superChain limit a).dropLast) : b ∈ h.classes.keys := by
  induction limit generalizing a with
  | zero => cases hb
  | succ limit ih =>
    unfold superChain at hb
    split at hb
    · rename_i parent hparent
      rcases List.mem_cons.mp hb with rfl | hb
      · exact mem_keys_of_mem_parents (Extends.mem_parents hparent)
      · exact ih hb
    · cases hb

theorem length_superChain_le (hacyclic : h.Acyclic) (limit : Nat) (a : String) :
    (h.superChain limit a).length ≤ h.size := by
  have hnodup : (a :: h.superChain limit a).Nodup := by
    refine (pairwise_extends limit a).imp ?_
    rintro b _ hbb rfl
    exact hacyclic b hbb
  have hsub : (a :: h.superChain limit a).dropLast ⊆ h.classes.keys :=
    fun b hb => mem_keys_of_mem_dropLast hb
  have hle := ((hnodup.sublist (List.dropLast_sublist _)).subperm hsub).length_le
  simpa [Table.keys, size, Table.size] using hle

/-- A walk that ends before its limit is not changed by a higher one. -/
theorem superChain_add {limit : Nat} (hlt : (h.superChain limit a).length < limit) (more : Nat) :
    h.superChain (limit + more) a = h.superChain limit a := by
  induction limit generalizing a with
  | zero => omega
  | succ limit ih =>
    rw [Nat.add_right_comm]
    unfold superChain at hlt ⊢
    split
    · rename_i parent hparent
      rw [hparent] at hlt
      rw [ih (Nat.lt_of_succ_lt_succ hlt)]
    · rfl

theorem superChain_eq (hacyclic : h.Acyclic) {limit : Nat} (hlimit : h.size < limit) (a : String) :
    h.superChain limit a = h.superChain (h.size + 1) a := by
  obtain ⟨more, rfl⟩ := Nat.exists_eq_add_of_lt hlimit
  rw [Nat.add_right_comm]
  exact superChain_add (Nat.lt_succ_of_le (length_superChain_le hacyclic _ a)) more

/-! ## Acyclic declarations -/

theorem acyclic_of_rank (rank : String → Nat) (hrank : ∀ a b, h.Extends a b → rank b < rank a) :
    h.Acyclic := by
  have hlt {a b : String} (hab : Relation.TransGen h.Extends a b) : rank b < rank a := by
    induction hab with
    | single hab => exact hrank _ _ hab
    | tail _ hbc ih => exact Nat.lt_trans (hrank _ _ hbc) ih
  exact fun a haa => Nat.lt_irrefl _ (hlt haa)

/-- Every class extends one that is declared before it, or one of the given. -/
def Ordered : (seen : List String) → List ClassDecl → Prop
  | _, [] => True
  | seen, c :: cs => (∀ s, c.superClass = some s → s ∈ seen) ∧ Ordered (seen ++ [c.name]) cs

theorem Ordered.mem {seen : List String} {front back : List ClassDecl} {c : ClassDecl}
    (hordered : Ordered seen (front ++ c :: back)) (hs : c.superClass = some s) :
    s ∈ seen ++ front.map ClassDecl.name := by
  induction front generalizing seen with
  | nil => exact List.mem_append_left _ (hordered.1 s hs)
  | cons d front ih =>
    rw [List.map_cons, List.append_cons]
    exact ih hordered.2

/-- The first declaration of a name counts, and its superclass has an earlier one. -/
theorem acyclic_of_ordered {cs : List ClassDecl} (hordered : Ordered [] cs) :
    (Hierarchy.mk ⟨cs.map fun c => (c.name, c)⟩).Acyclic := by
  refine acyclic_of_rank (fun a => (cs.map ClassDecl.name).idxOf a) fun a b hab => ?_
  obtain ⟨c, hc, hsuper⟩ := Option.bind_eq_some_iff.mp hab
  obtain ⟨e, he, rfl⟩ := Option.map_eq_some_iff.mp hc
  obtain ⟨hkey, before, after, hsplit, hbefore⟩ := List.find?_eq_some_iff_append.mp he
  obtain ⟨front, rest, rfl, rfl, hrest⟩ := List.map_eq_append_iff.mp hsplit
  obtain ⟨c, back, rfl, rfl, rfl⟩ := List.map_eq_cons_iff.mp hrest
  obtain rfl : c.name = a := eq_of_beq hkey
  have hb : b ∈ front.map ClassDecl.name := hordered.mem hsuper
  have ha : c.name ∉ front.map ClassDecl.name := by
    intro hmem
    obtain ⟨d, hd, hname⟩ := List.mem_map.mp hmem
    have hne := hbefore _ (List.mem_map_of_mem hd)
    simp [hname] at hne
  rw [List.map_append, List.idxOf_append_of_mem hb, List.idxOf_append_of_notMem ha]
  exact Nat.lt_of_lt_of_le (List.idxOf_lt_length_of_mem hb) (Nat.le_add_right _ _)

theorem Ordered.append {seen : List String} {cs ds : List ClassDecl} (hcs : Ordered seen cs)
    (hds : Ordered (seen ++ cs.map ClassDecl.name) ds) : Ordered seen (cs ++ ds) := by
  induction cs generalizing seen with
  | nil => simpa using hds
  | cons c cs ih =>
    refine ⟨hcs.1, ih hcs.2 ?_⟩
    rwa [List.map_cons, List.append_cons] at hds

theorem ordered_of_forall {seen : List String} {cs : List ClassDecl}
    (hcs : ∀ c ∈ cs, ∀ s, c.superClass = some s → s ∈ seen) : Ordered seen cs := by
  induction cs generalizing seen with
  | nil => trivial
  | cons c cs ih =>
    refine ⟨hcs c List.mem_cons_self, ih fun d hd s hs => ?_⟩
    exact List.mem_append_left _ (hcs d (List.mem_cons_of_mem c hd) s hs)

theorem ordered_throwables {seen : List String} (hroot : Ty.rootClass ∈ seen) :
    Ordered seen (throwables.map fun (name, parent) => (ClassDecl.new name).extending parent) := by
  simp [throwables, Ordered, ClassDecl.extending, ClassDecl.new, hroot, slashed_rootClass]

theorem acyclic_standard : standard.Acyclic := by
  let first := [Ty.rootClass, Ty.stringClass, Ty.classClass, "java/lang/Number"].map ClassDecl.new
  have hroot : Ty.rootClass ∈ first.map ClassDecl.name := by
    rw [← slashed_rootClass]
    exact List.mem_cons_self
  have hnumber : slashed "java/lang/Number" ∈ first.map ClassDecl.name := by
    simp [first, ClassDecl.new]
  have hfirst : Ordered [] first := by
    refine ⟨fun s hs => ?_, ordered_of_forall fun c hc s hs => ?_⟩
    · simp [ClassDecl.new, slashed_rootClass] at hs
    · obtain ⟨name, -, rfl⟩ := List.mem_map.mp hc
      rw [ClassDecl.superClass_new hs, ← slashed_rootClass]
      exact List.mem_cons_self
  have hboxes : Ordered ([] ++ first.map ClassDecl.name) boxes := by
    refine ordered_of_forall fun c hc s hs => ?_
    simp only [boxes, List.mem_cons, List.not_mem_nil, or_false] at hc
    rcases hc with rfl | rfl | hc
    · rw [ClassDecl.superClass_boxing] at hs
      exact ClassDecl.superClass_new hs ▸ hroot
    · rw [ClassDecl.superClass_boxing] at hs
      exact ClassDecl.superClass_new hs ▸ hroot
    · rcases hc with rfl | rfl | rfl | rfl | rfl | rfl <;> exact Option.some.inj hs ▸ hnumber
  refine acyclic_of_ordered (((hfirst.append hboxes).append (ordered_throwables ?_)).append ?_)
  · simp [hroot]
  · refine ordered_of_forall fun c hc s hs => ?_
    obtain ⟨name, -, rfl⟩ := List.mem_map.mp hc
    have hs : s = Ty.rootClass := ClassDecl.superClass_new hs
    simp [hs, hroot]

section Insert

variable {c : ClassDecl}

theorem extends_insert (hab : (h.insert c).Extends a b) :
    a = c.name ∧ c.superClass = some b ∨ a ≠ c.name ∧ h.Extends a b := by
  obtain ⟨d, hd, hsuper⟩ := Option.bind_eq_some_iff.mp hab
  rcases Table.get?_insert_eq_some hd with ⟨rfl, rfl⟩ | ⟨hne, hget⟩
  · exact .inl ⟨rfl, hsuper⟩
  · exact .inr ⟨hne, Option.bind_eq_some_iff.mpr ⟨d, hget, hsuper⟩⟩

/-- The way to a class up to where it is first met does not depend on its declaration. -/
theorem reaches_before_insert (ha : Relation.ReflTransGen (h.insert c).Extends a c.name) :
    Relation.ReflTransGen h.Extends a c.name := by
  induction ha using Relation.ReflTransGen.head_induction_on with
  | refl => exact .refl
  | head hab _ ih =>
    rcases extends_insert hab with ⟨rfl, -⟩ | ⟨-, hab⟩
    · exact .refl
    · exact .head hab ih

/-- A way up goes through the new class or was there before. -/
theorem transGen_insert (hab : Relation.TransGen (h.insert c).Extends a b) :
    Relation.TransGen h.Extends a b ∨ Relation.ReflTransGen (h.insert c).Extends a c.name ∧
      Relation.TransGen (h.insert c).Extends c.name b := by
  induction hab using Relation.TransGen.head_induction_on with
  | single hab =>
    rcases extends_insert hab with ⟨rfl, -⟩ | ⟨-, hold⟩
    · exact .inr ⟨.refl, .single hab⟩
    · exact .inl (.single hold)
  | head hab hrest ih =>
    rcases ih with hold | ⟨hto, hfrom⟩
    · rcases extends_insert hab with ⟨rfl, -⟩ | ⟨-, hfirst⟩
      · exact .inr ⟨.refl, .head hab hrest⟩
      · exact .inl (.head hfirst hold)
    · exact .inr ⟨.head hab hto, hfrom⟩

theorem Acyclic.insert (hacyclic : h.Acyclic)
    (hback : ∀ s, c.superClass = some s → ¬ Relation.ReflTransGen h.Extends s c.name) :
    (h.insert c).Acyclic := by
  intro a haa
  rcases transGen_insert haa with hold | ⟨hto, hfrom⟩
  · exact hacyclic a hold
  · -- round the new class once
    obtain ⟨s, hs, hrest⟩ := Relation.TransGen.head'_iff.mp (hfrom.trans_left hto)
    rcases extends_insert hs with ⟨-, hs⟩ | ⟨hne, -⟩
    · exact hback s hs (reaches_before_insert hrest)
    · exact hne rfl

end Insert

end Hierarchy

end Concolic
