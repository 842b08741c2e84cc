import Concolic.Proofs.Term.Rebuild
import Concolic.Proofs.Term.Rename

/-!
# Positions in a term

A position is the list of the places of subterms to go down through, from the term itself. So the
nodes of two terms can be compared one by one.

* `Term.at? t p`: the term at a position. What stands in a term that was built was built itself
  (`Built.at?`), and what stands in a term all of whose nodes pass a test passes it (`of_all`).
* `at?_renamed`: renaming changes the nodes of a term and not their positions.
* `Term.NodeRenamed`: what renaming does to one node.
* `rename_nodes`: renaming succeeds on every term that was built, and does this to every node.
-/

namespace Concolic.Term

/-- The term at a position. -/
def at? : Term → List Nat → Option Term
  | t, [] => some t
  | t, k :: p => t.subterms[k]?.bind fun s => s.at? p

mutual

/-- Whether all nodes of the term pass a test. -/
def all (test : Term → Bool) : Term → Bool
  | ⟨kind, ty, subterms⟩ => test ⟨kind, ty, subterms⟩ && allOf test subterms

/-- Whether all nodes of the terms pass a test. -/
def allOf (test : Term → Bool) : List Term → Bool
  | [] => true
  | t :: ts => t.all test && allOf test ts

end

variable {t s : Term} {p : List Nat} {suffix : String} {mapping : Table Term Term}

@[simp] theorem at?_nil (t : Term) : t.at? [] = some t := rfl

theorem at?_cons (t : Term) (k : Nat) (p : List Nat) :
    t.at? (k :: p) = t.subterms[k]?.bind fun s => s.at? p := rfl

/-- What stands at a position below the term stands in one of its subterms. -/
theorem mem_of_at?_cons {k : Nat} (h : t.at? (k :: p) = some s) :
    ∃ u ∈ t.subterms, t.subterms[k]? = some u ∧ u.at? p = some s := by
  obtain ⟨u, hu, hs⟩ := Option.bind_eq_some_iff.mp h
  exact ⟨u, List.mem_of_getElem? hu, hu, hs⟩

theorem all_of_mem {test : Term → Bool} {ts : List Term} (h : allOf test ts = true) (ht : t ∈ ts) :
    t.all test = true := by
  induction ts with
  | nil => cases ht
  | cons u us ih =>
    simp only [allOf, Bool.and_eq_true] at h
    rcases List.mem_cons.mp ht with rfl | ht
    · exact h.1
    · exact ih h.2 ht

theorem of_all {test : Term → Bool} (h : t.all test = true) (hs : t.at? p = some s) :
    test s = true := by
  induction p generalizing t with
  | nil =>
    obtain ⟨kind, ty, subterms⟩ := t
    simp only [all, Bool.and_eq_true] at h
    cases hs
    exact h.1
  | cons k p ih =>
    obtain ⟨u, hu, -, hus⟩ := mem_of_at?_cons hs
    obtain ⟨kind, ty, subterms⟩ := t
    simp only [all, Bool.and_eq_true] at h
    exact ih (all_of_mem h.2 hu) hus

theorem Built.of_mem (h : t.Built) (hs : s ∈ t.subterms) : s.Built := by
  cases h with
  | composite hsubs hc => exact hsubs s (hc.construct.2.1 ▸ hs)
  | _ => cases hs

theorem Built.at? (h : t.Built) (hs : t.at? p = some s) : s.Built := by
  induction p generalizing t with
  | nil => cases hs; exact h
  | cons k p ih =>
    obtain ⟨u, hu, -, hs⟩ := mem_of_at?_cons hs
    exact ih (h.of_mem hu) hs

theorem Built.subterms_of_leaf (h : t.Built) (hleaf : t.kind.isLeaf = true) : t.subterms = [] := by
  cases h with
  | composite _ hc =>
    have hcomposite := hc.construct.1
    rw [hleaf] at hcomposite
    cases hcomposite
  | _ => rfl

theorem Built.exists_leaf {k : Kind} (h : t.Built) (hk : t.kind = k) (hleaf : k.isLeaf = true) :
    ∃ ty, t = leaf k ty := by
  have hsubterms := h.subterms_of_leaf (hk ▸ hleaf)
  obtain ⟨kind, ty, subterms⟩ := t
  cases hk
  cases hsubterms
  exact ⟨ty, rfl⟩

/-! ## Renaming -/

/-- The subterms of what became of a term are what became of its subterms. -/
theorem subterms_renamed (hm : MapsVariables mapping) (h : t.Built) :
    (t.renamed suffix mapping).subterms = t.subterms.map (renamed suffix mapping) := by
  have hleaf (kind : Kind) (ty : Ty) : ((leaf kind ty).renamed suffix mapping).subterms = [] := by
    rw [leaf, renamed]
    cases hget : mapping.get? ⟨kind, ty, []⟩ with
    | some y => rcases (hm.get? hget).2.1 with ⟨_, _, rfl⟩ | ⟨_, _, rfl⟩ <;> rfl
    | none => cases kind <;> rfl
  cases h with
  | composite _ hc => rw [renamed_composite hm hc, hc.construct.2.1]
  | _ => exact hleaf _ _

theorem at?_renamed (hm : MapsVariables mapping) (h : t.Built) (p : List Nat) :
    (t.renamed suffix mapping).at? p = (t.at? p).map (renamed suffix mapping) := by
  induction p generalizing t with
  | nil => rfl
  | cons k p ih =>
    rw [at?_cons, at?_cons, subterms_renamed hm h, List.getElem?_map]
    cases hk : t.subterms[k]? with
    | none => rfl
    | some u => exact ih (h.of_mem (List.mem_of_getElem? hk))

/-- The node `u` is what renaming makes of the node `s`. -/
structure NodeRenamed (suffix : String) (mapping : Table Term Term) (s u : Term) : Prop where
  ty : u.ty = s.ty
  arity : u.subterms.length = s.subterms.length
  /-- A mapped node is replaced. -/
  mapped : ∀ y, mapping.get? s = some y → u = y
  /-- Any other named value gets the suffix. -/
  named : ∀ n, s.kind = .value n → mapping.get? s = none → u = value s.ty (n ++ suffix)
  /-- Any other node keeps its kind and all that this carries. -/
  kept : (∀ n, s.kind ≠ .value n) → mapping.get? s = none → u.kind = s.kind
  /-- Any other leaf stays as it is. -/
  leaf : (∀ n, s.kind ≠ .value n) → mapping.get? s = none → s.kind.isLeaf = true → u = s

theorem renamed_of_mapped {y : Term} (h : mapping.get? t = some y) :
    t.renamed suffix mapping = y := by
  obtain ⟨kind, ty, subterms⟩ := t
  rw [renamed, h]
  rfl

/-- A node that is neither mapped nor a named value keeps kind and type. -/
theorem renamed_of_kept (h : mapping.get? t = none) (hname : ∀ n, t.kind ≠ .value n) :
    t.renamed suffix mapping = ⟨t.kind, t.ty, t.subterms.map (renamed suffix mapping)⟩ := by
  obtain ⟨kind, ty, subterms⟩ := t
  rw [renamed, h, renamedAll_eq_map, Option.getD_none]
  cases kind with
  | value n => exact absurd rfl (hname n)
  | _ => rfl

theorem nodeRenamed (hm : MapsVariables mapping) (h : t.Built) :
    NodeRenamed suffix mapping t (t.renamed suffix mapping) where
  ty := (renamed_fits hm h).ty
  arity := by rw [subterms_renamed hm h, List.length_map]
  mapped _ hy := renamed_of_mapped hy
  named n hn hget := by
    obtain ⟨ty, rfl⟩ := h.exists_leaf hn rfl
    unfold Term.leaf at hget ⊢
    rw [renamed, hget]
    rfl
  kept hname hget := by rw [renamed_of_kept hget hname]
  leaf hname hget hleaf := by
    rw [renamed_of_kept hget hname, h.subterms_of_leaf hleaf, List.map_nil]
    obtain ⟨ty, ht⟩ := h.exists_leaf rfl hleaf
    rw [ht]
    rfl

/-- Renaming succeeds on every term that was built, for every mapping of variables to variables of
the same type. The outcome was built, and it has a node exactly where the term has one: of the same
type and with as many subterms, and of the same kind unless the node is mapped or a named value. -/
theorem rename_nodes (hm : MapsVariables mapping) (h : t.Built) (suffix : String) :
    ∃ u, t.rename suffix mapping = .ok u ∧ u.Built ∧
      ∀ p, Option.Rel (NodeRenamed suffix mapping) (t.at? p) (u.at? p) := by
  refine ⟨t.renamed suffix mapping, rename_built hm h, renamed_built hm h, fun p => ?_⟩
  rw [at?_renamed hm h]
  cases hs : t.at? p with
  | none => exact .none
  | some s => exact .some (nodeRenamed hm (h.at? hs))

open Sample in
/-- The function that looks up an element of its first argument, with the argument replaced. -/
theorem rename_nodes_lookup :
    let xs : Term := .value (.array .int) "xs"
    let mapping : Table Term Term := ⟨[(.argument (.array .int) 0, xs)]⟩
    MapsVariables mapping ∧ lookup.Built ∧ lookup.name = "(i) -> \x7b *(arg$0[i]) \x7d" ∧
      ∃ u, lookup.rename ".1" mapping = .ok u ∧ u.Built ∧
        u.name = "(i.1) -> \x7b *(xs[i.1]) \x7d" ∧ u.at? [1, 0, 0] = some xs := by
  intro xs mapping
  have hm : MapsVariables mapping :=
    List.forall_mem_singleton.mpr ⟨.inr ⟨_, _, rfl⟩, .inl ⟨_, _, rfl⟩, rfl⟩
  obtain ⟨u, hu, hbuilt, hnodes⟩ := rename_nodes hm built_lookup ".1"
  have hname : (lookup.rename ".1" mapping).toOption.map name =
      some "(i.1) -> \x7b *(xs[i.1]) \x7d" := by decide +kernel
  rw [hu] at hname
  have harray : lookup.at? [1, 0, 0] = some (.argument (.array .int) 0) := rfl
  have hnode := hnodes [1, 0, 0]
  rw [harray] at hnode
  generalize hy : u.at? [1, 0, 0] = y at hnode
  obtain ⟨hnode⟩ := hnode
  obtain rfl := hnode.mapped xs rfl
  exact ⟨hm, built_lookup, by decide +kernel, u, hu, hbuilt, Option.some.inj hname, hy⟩

end Concolic.Term
