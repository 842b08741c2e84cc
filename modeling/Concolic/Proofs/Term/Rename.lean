import Concolic.Proofs.Table
import Concolic.Proofs.Term
import Concolic.Proofs.Term.Built
import Concolic.Term.Traversal

/-!
# Renaming terms

A renamer rebuilds every term above a leaf that it changes, so it may fail. On terms that the
constructors made, and with a mapping of variables to variables of the same type, it does not: it
keeps types and kinds, and the constructors look at nothing else.

* `Term.renamed suffix mapping t`: what renaming makes of a term, leaf by leaf, with no check on the
  way.
* `rename_built`: renaming succeeds on every term that was built, and this is the outcome.
* `renamed_fits`: the outcome takes the place of the term under every constructor. So it has the
  same type.
* `renamed_beq_leaf`: leaves are the same after their named values got a suffix exactly if they were
  the same before.
-/

namespace Concolic

namespace Term

/-- The term is a named value or an argument. -/
def IsVariable (t : Term) : Prop :=
  (∃ ty name, t = value ty name) ∨ ∃ ty index, t = argument ty index

/-- Every entry replaces a variable by a variable of the same type. -/
def MapsVariables (mapping : Table Term Term) : Prop :=
  ∀ e ∈ mapping.entries, e.1.IsVariable ∧ e.2.IsVariable ∧ e.2.ty = e.1.ty

mutual

/-- The term with mapped terms replaced, and with the suffix at every other named value. -/
def renamed (suffix : String) (mapping : Table Term Term) : Term → Term
  | ⟨kind, ty, subterms⟩ =>
    (mapping.get? ⟨kind, ty, subterms⟩).getD
      (Traversal.addSuffix suffix ⟨kind, ty, renamedAll suffix mapping subterms⟩)

/-- The terms, each of them renamed. -/
def renamedAll (suffix : String) (mapping : Table Term Term) : List Term → List Term
  | [] => []
  | t :: ts => t.renamed suffix mapping :: renamedAll suffix mapping ts

end

theorem renamedAll_eq_map (suffix : String) (mapping : Table Term Term) (ts : List Term) :
    renamedAll suffix mapping ts = ts.map (renamed suffix mapping) := by
  induction ts with
  | nil => rfl
  | cons t ts ih => rw [renamedAll, ih, List.map_cons]

namespace IsVariable

variable {x y : Term}

theorem isNamed (h : x.IsVariable) : x.kind.isNamed = true := by
  rcases h with ⟨ty, name, rfl⟩ | ⟨ty, index, rfl⟩ <;> rfl

theorem isLeaf (h : x.IsVariable) : x.kind.isLeaf = true := by
  rcases h with ⟨ty, name, rfl⟩ | ⟨ty, index, rfl⟩ <;> rfl

/-- Nothing else counts as the same as a variable. -/
theorem eq_of_beq (h : x.IsVariable) (hbeq : (y == x) = true) : y = x := by
  rcases h with ⟨ty, name, rfl⟩ | ⟨ty, index, rfl⟩
  · exact eq_value_of_beq hbeq
  · exact eq_argument_of_beq hbeq

end IsVariable

theorem mapsVariables_empty : MapsVariables ∅ := nofun

theorem MapsVariables.get? {mapping : Table Term Term} (h : MapsVariables mapping) {x y : Term}
    (hxy : mapping.get? x = some y) : x.IsVariable ∧ y.IsVariable ∧ y.ty = x.ty := by
  obtain ⟨e, he, rfl⟩ := Option.map_eq_some_iff.mp hxy
  obtain ⟨hkey, hvalue, hty⟩ := h e (List.mem_of_find?_eq_some he)
  have hfound := List.find?_some he
  have hsame : (x == e.1) = true := BEq.symm hfound
  rw [hkey.eq_of_beq hsame]
  exact ⟨hkey, hvalue, hty⟩

section Renaming

variable {suffix : String} {mapping : Table Term Term} {t : Term} {subs : List Term}

/-! ## Leaves and composite terms -/

theorem addSuffix_of_composite (h : t.kind.isLeaf = false) :
    Traversal.addSuffix suffix t = t := by
  unfold Traversal.addSuffix
  split
  · next name hk => rw [hk] at h; cases h
  · rfl

/-- A composite term is not mapped. -/
theorem MapsVariables.get?_composite (hm : MapsVariables mapping) (h : t.kind.isLeaf = false) :
    mapping.get? t = none := by
  cases hget : mapping.get? t with
  | none => rfl
  | some y =>
    have hvariable := (hm.get? hget).1.isLeaf
    rw [h] at hvariable
    cases hvariable

theorem renamed_composite (hm : MapsVariables mapping) (h : Composes subs t) :
    t.renamed suffix mapping = ⟨t.kind, t.ty, subs.map (renamed suffix mapping)⟩ := by
  obtain ⟨hleaf, rfl, -⟩ := h.construct
  obtain ⟨kind, ty, subterms⟩ := t
  rw [renamed, hm.get?_composite hleaf, renamedAll_eq_map]
  exact addSuffix_of_composite hleaf

theorem fits_addSuffix (kind : Kind) (ty : Ty) :
    (leaf kind ty).Fits (Traversal.addSuffix suffix (leaf kind ty)) := by
  cases kind with
  | value name => exact ⟨rfl, rfl, nofun, nofun⟩
  | _ => exact ⟨rfl, rfl, fun _ => rfl, fun _ => rfl⟩

theorem fits_leaf (hm : MapsVariables mapping) (kind : Kind) (ty : Ty) :
    (leaf kind ty).Fits ((leaf kind ty).renamed suffix mapping) := by
  rw [leaf, renamed]
  cases hget : mapping.get? ⟨kind, ty, []⟩ with
  | none => exact fits_addSuffix kind ty
  | some y =>
    obtain ⟨hx, hy, hty⟩ := hm.get? hget
    have hnamed := hx.isNamed
    refine ⟨hty, hy.isNamed.trans hnamed.symm, fun h => ?_, fun h => ?_⟩
    · rw [hnamed] at h; cases h
    · rw [hnamed] at h; cases h

/-- What renaming makes of a term takes its place under every constructor. -/
theorem renamed_fits (hm : MapsVariables mapping) (h : t.Built) :
    t.Fits (t.renamed suffix mapping) := by
  induction h with
  | composite _ h ih =>
    rename_i subs t _
    obtain ⟨-, hsubs, -⟩ := h.construct
    rw [renamed_composite hm h]
    refine ⟨rfl, rfl, fun _ => rfl, fun _ => ?_⟩
    rw [hsubs, List.map_map]
    exact List.map_congr_left fun s hs => (ih s hs).ty
  | _ => exact fits_leaf hm _ _

/-! ## Terms that stay -/

theorem sameAll_eq_beq (ts us : List Term) : sameAll ts us = (ts == us) := by
  induction ts generalizing us with
  | nil => cases us <;> rfl
  | cons t ts ih =>
    cases us with
    | nil => rfl
    | cons u us => rw [sameAll, ih us]; rfl

/-- Terms that all count as the same after a function was applied are unchanged if this holds of
each of them. -/
theorem map_eq_of_beq {f : Term → Term} {ts : List Term} (h : (ts.map f == ts) = true)
    (hf : ∀ t ∈ ts, (f t == t) = true → f t = t) : ts.map f = ts := by
  induction ts with
  | nil => rfl
  | cons t ts ih =>
    obtain ⟨ht, hts⟩ := Bool.and_eq_true_iff.mp h
    rw [List.map_cons, hf t List.mem_cons_self ht,
      ih hts fun u hu => hf u (List.mem_cons_of_mem t hu)]

/-- A leaf that counts as the same after it was renamed is unchanged. -/
theorem renamed_leaf_of_beq (hm : MapsVariables mapping) {kind : Kind} {ty : Ty}
    (h : ((leaf kind ty).renamed suffix mapping == leaf kind ty) = true) :
    (leaf kind ty).renamed suffix mapping = leaf kind ty := by
  rw [leaf, renamed] at h ⊢
  cases hget : mapping.get? ⟨kind, ty, []⟩ with
  | some y =>
    rw [hget] at h
    exact (hm.get? hget).1.eq_of_beq h
  | none =>
    rw [hget] at h
    cases kind with
    | value name => exact eq_value_of_beq h
    | _ => rfl

/-- What counts as the same after it was renamed is unchanged: the kinds of composite terms stay,
and different variables never count as the same. -/
theorem renamed_of_beq (hm : MapsVariables mapping) (ht : t.Built)
    (h : (t.renamed suffix mapping == t) = true) : t.renamed suffix mapping = t := by
  induction ht with
  | composite _ hc ih =>
    rename_i subs t _
    rw [renamed_composite hm hc] at h ⊢
    obtain ⟨-, rfl, -⟩ := hc.construct
    obtain ⟨kind, ty, subterms⟩ := t
    rw [beq_def, same] at h
    have hall := (Bool.and_eq_true_iff.mp h).2
    rw [sameAll_eq_beq] at hall
    rw [map_eq_of_beq hall ih]
  | _ => exact renamed_leaf_of_beq hm h

/-! ## Renaming succeeds -/

theorem walk_bind_of_ok {σ α β : Type} {x : Walk σ α} {s s' : σ} {a : α} (h : x s = .ok (a, s'))
    (f : α → Walk σ β) : (x >>= f) s = f a s' := by
  show (x s >>= fun p => f p.1 p.2) = _
  rw [h]
  rfl

theorem term_leaf (kind : Kind) (ty : Ty) :
    (Traversal.renamer suffix mapping).term (leaf kind ty) () =
      .ok ((leaf kind ty).renamed suffix mapping, ()) := by
  have henter : (Traversal.renamer suffix mapping).enter = mapping.get? := rfl
  rw [leaf, Traversal.term, renamed, henter]
  cases mapping.get? ⟨kind, ty, []⟩ <;> rfl

theorem terms_renamer {r : Traversal Unit} {f : Term → Term} {ts : List Term}
    (h : ∀ t ∈ ts, r.term t () = .ok (f t, ())) : r.terms ts () = .ok (ts.map f, ()) := by
  induction ts with
  | nil => rfl
  | cons t ts ih =>
    rw [Traversal.terms, walk_bind_of_ok (h t List.mem_cons_self),
      walk_bind_of_ok (ih fun u hu => h u (List.mem_cons_of_mem t hu))]
    rfl

/-- A composite term over operands that were renamed can be rebuilt. -/
theorem rebuild_renamed (hm : MapsVariables mapping) (hsubs : ∀ s ∈ subs, s.Built)
    (h : Composes subs t) :
    t.rebuild (subs.map (renamed suffix mapping)) = .ok (t.renamed suffix mapping) := by
  have hfits : List.Forall₂ Fits subs (subs.map (renamed suffix mapping)) :=
    List.forall₂_map_right_iff.mpr (List.forall₂_same.mpr fun s hs => renamed_fits hm (hsubs s hs))
  obtain ⟨-, -, hconstruct⟩ := (h.replace hfits).construct
  rw [renamed_composite hm h, rebuild, if_pos ?_]
  · exact hconstruct t rfl rfl
  · rw [List.length_map, h.construct.2.1]

/-- The traversal of a renamer succeeds on every term that was built. -/
theorem term_renamer (hm : MapsVariables mapping) (h : t.Built) :
    (Traversal.renamer suffix mapping).term t () = .ok (t.renamed suffix mapping, ()) := by
  induction h with
  | composite hsubs hc ih =>
    rename_i subs t
    have hterms := terms_renamer ih
    have hrebuild : t.rebuild (subs.map (renamed suffix mapping)) = _ :=
      rebuild_renamed hm hsubs hc
    have hrenamed : t.renamed suffix mapping = _ := renamed_composite hm hc
    obtain ⟨hleaf, rfl, -⟩ := hc.construct
    have hleaf' : (t.renamed suffix mapping).kind.isLeaf = false := by rw [hrenamed]; exact hleaf
    obtain ⟨kind, ty, subterms⟩ := t
    have henter : (Traversal.renamer suffix mapping).enter ⟨kind, ty, subterms⟩ = none :=
      hm.get?_composite hleaf
    have hfinish (u : Term) (hu : u.kind.isLeaf = false) :
        (Traversal.renamer suffix mapping).finish u () = .ok (u, ()) :=
      congrArg (fun u => Except.ok (u, ())) (addSuffix_of_composite hu)
    rw [Traversal.term, henter]
    dsimp only
    rw [walk_bind_of_ok hterms]
    split
    · next hsame =>
      have hmap := map_eq_of_beq hsame fun s hs => renamed_of_beq hm (hsubs s hs)
      rw [hfinish _ hleaf, hrenamed, hmap]
    · rw [hrebuild]
      exact hfinish _ hleaf'
  | _ => exact term_leaf _ _

/-- Renaming succeeds on every term that was built. -/
theorem rename_built (hm : MapsVariables mapping) (h : t.Built) :
    t.rename suffix mapping = .ok (t.renamed suffix mapping) := by
  show Prod.fst <$> (Traversal.renamer suffix mapping).term t () = _
  rw [term_renamer hm h]
  rfl

theorem IsVariable.built (h : t.IsVariable) : t.Built := by
  rcases h with ⟨ty, name, rfl⟩ | ⟨ty, index, rfl⟩
  · exact .value ty name
  · exact .argument ty index

theorem built_leaf (hm : MapsVariables mapping) {kind : Kind} {ty : Ty}
    (h : (leaf kind ty).Built) : ((leaf kind ty).renamed suffix mapping).Built := by
  rw [leaf, renamed]
  cases hget : mapping.get? ⟨kind, ty, []⟩ with
  | some y => exact (hm.get? hget).2.1.built
  | none =>
    cases kind with
    | value name => exact .value ty (name ++ suffix)
    | _ => exact h

theorem renamed_built (hm : MapsVariables mapping) (h : t.Built) :
    (t.renamed suffix mapping).Built := by
  induction h with
  | composite hsubs hc ih =>
    rename_i subs t
    have hfits : List.Forall₂ Fits subs (subs.map (renamed suffix mapping)) :=
      List.forall₂_map_right_iff.mpr
        (List.forall₂_same.mpr fun s hs => renamed_fits hm (hsubs s hs))
    rw [renamed_composite hm hc]
    refine .composite (fun u hu => ?_) (hc.replace hfits)
    obtain ⟨s, hs, rfl⟩ := List.mem_map.mp hu
    exact ih s hs
  | argument ty index => exact built_leaf hm (.argument ty index)
  | value ty name => exact built_leaf hm (.value ty name)
  | receiver ty => exact built_leaf hm (.receiver ty)
  | returnValue m => exact built_leaf hm (.returnValue m)
  | constant c => exact built_leaf hm (.constant c)
  | staticRef className => exact built_leaf hm (.staticRef className)
  | undef ty => exact built_leaf hm (.undef ty)

end Renaming

/-! ## Suffixes -/

theorem leaf_beq_iff {k k' : Kind} {ty ty' : Ty} : (leaf k ty == leaf k' ty') = true ↔
    k.name = k'.name ∧ k.render ty [] = k'.render ty' [] ∧ ty = ty' := by
  simp [beq_def, leaf, same, names, sameAll, and_assoc]

/-- Leaves are the same after their names got a suffix exactly if they were the same before. -/
theorem renamed_beq_leaf (suffix : String) (k k' : Kind) (ty ty' : Ty) :
    ((leaf k ty).renamed suffix ∅ == (leaf k' ty').renamed suffix ∅) =
      (leaf k ty == leaf k' ty') := by
  have hvalue (n : String) (ty : Ty) :
      (leaf (.value n) ty).renamed suffix ∅ = leaf (.value (n ++ suffix)) ty := rfl
  have hother (k : Kind) (ty : Ty) (hk : k.name ≠ "value") :
      (leaf k ty).renamed suffix ∅ = leaf k ty := by
    cases k with
    | value n => exact absurd rfl hk
    | _ => rfl
  rw [Bool.eq_iff_iff]
  by_cases hk : k.name = "value" <;> by_cases hk' : k'.name = "value"
  · obtain ⟨n, rfl⟩ := Kind.eq_value hk
    obtain ⟨n', rfl⟩ := Kind.eq_value hk'
    rw [hvalue, hvalue, leaf_beq_iff, leaf_beq_iff]
    simp [Kind.render, Kind.name]
  · obtain ⟨n, rfl⟩ := Kind.eq_value hk
    rw [hvalue, hother k' ty' hk', leaf_beq_iff, leaf_beq_iff]
    exact ⟨fun h => absurd h.1.symm hk', fun h => absurd h.1.symm hk'⟩
  · obtain ⟨n', rfl⟩ := Kind.eq_value hk'
    rw [hvalue, hother k ty hk, leaf_beq_iff, leaf_beq_iff]
    exact ⟨fun h => absurd h.1 hk, fun h => absurd h.1 hk⟩
  · rw [hother k ty hk, hother k' ty' hk']

end Term

end Concolic
