import Concolic.Hierarchy.Subtype
import Concolic.Proofs.Table
import Mathlib.Data.List.Basic
import Mathlib.Data.List.Flatten
import Mathlib.Logic.Relation

/-!
# Laws of inheritance

* **The search** (`Search.answer?_start`): with enough steps the search ends, and it finds exactly
  what declared supertypes lead to, cyclic declarations included. Only what can be reached waits,
  and the parents of what was visited are visited or wait (`Search.Explores`). Every step takes a
  name off the queue, and the names that it adds were due (`Search.due_lt_of_step`). So `inherits`
  is reachability (`inherits_iff`).
* **Lines** (`Lineal`): a type is in the line of a class if it is the class itself, one of its
  superclasses or the root. Of some types in one line, one is below all the others (`exists_least`).
-/

namespace Concolic.Hierarchy

variable (h : Hierarchy)

/-! ## The search for an ancestor -/

/-- Declared supertypes lead from one class to the other. -/
def Reaches : String → String → Prop := Relation.ReflTransGen fun a b => b ∈ h.parents a

/-- The number of declared direct supertypes of the classes that are not among the given ones. -/
def edgesBeyond (visited : List String) : Nat :=
  ((h.classes.entries.filter fun e => !visited.contains e.1).flatMap fun e => e.2.parents).length

variable {h}

theorem mem_keys_of_mem_parents {a b : String} (hb : b ∈ h.parents a) : a ∈ h.classes.keys := by
  unfold parents at hb
  split at hb
  · rename_i c hc
    exact List.mem_map.mpr ⟨(a, c), Table.mem_entries_of_get? hc, rfl⟩
  · cases hb

private theorem edgesBeyond_nil : h.edgesBeyond [] = h.edges := by simp [edgesBeyond, edges]

private theorem length_flatMap_filter_le {α β : Type} (f : α → List β) (q : α → Bool)
    (l : List α) : ((l.filter q).flatMap f).length ≤ (l.flatMap f).length :=
  (List.filter_sublist.flatMap f).length_le

/-- Leaving out an item takes at least its share off the whole. -/
private theorem length_add_flatMap_filter_le {α β : Type} (f : α → List β) {q : α → Bool}
    {l : List α} {a : α} (ha : a ∈ l) (hq : q a = false) :
    (f a).length + ((l.filter q).flatMap f).length ≤ (l.flatMap f).length := by
  obtain ⟨before, after, rfl⟩ := List.append_of_mem ha
  have hbefore := length_flatMap_filter_le f q before
  have hafter := length_flatMap_filter_le f q after
  rw [List.filter_append, List.filter_cons_of_neg (by simp [hq])]
  simp only [List.flatMap_append, List.flatMap_cons, List.length_append]
  omega

/-- Once a class is visited, its own supertypes are no longer counted. -/
private theorem length_parents_add_le {visited : List String} {name : String}
    (hnew : name ∉ visited) :
    (h.parents name).length + h.edgesBeyond (name :: visited) ≤ h.edgesBeyond visited := by
  have hfilter : (fun e : String × ClassDecl => !(name :: visited).contains e.1) =
      fun e => e.1 != name && !visited.contains e.1 := by
    funext e
    rw [List.contains_cons, Bool.not_or]
    rfl
  unfold edgesBeyond parents
  rw [hfilter, ← List.filter_filter]
  cases hget : h.get? name with
  | none =>
    rw [List.length_nil, Nat.zero_add]
    exact length_flatMap_filter_le _ _ _
  | some c =>
    have hmem : (name, c) ∈ h.classes.entries.filter fun e => !visited.contains e.1 :=
      List.mem_filter.mpr ⟨Table.mem_entries_of_get? hget, by simpa using hnew⟩
    refine length_add_flatMap_filter_le (fun e => e.2.parents) hmem ?_
    exact bne_self_eq_false name

namespace Search

variable {c a : String} {s s' : Search}

variable (h) in
/-- How many names can still come to the head of the queue. -/
def due (s : Search) : Nat := s.queue.length + h.edgesBeyond s.visited

/-- The search looks for `a` from `c` on. It waits only for what `c` leads to. It has expanded `c`
or is going to, and the same holds of the parents of all that it expanded. It has not passed `a`. -/
structure Explores (h : Hierarchy) (c a : String) (s : Search) : Prop where
  reached : ∀ b ∈ s.queue, h.Reaches c b
  origin : c ∈ s.visited ∨ c ∈ s.queue
  parents : ∀ b ∈ s.visited, ∀ d ∈ h.parents b, d ∈ s.visited ∨ d ∈ s.queue
  passed : a ∉ s.visited

theorem explores_start (c a : String) : (start c).Explores h c a where
  reached _ hb := List.mem_singleton.mp hb ▸ .refl
  origin := .inr (List.mem_singleton_self c)
  parents _ hb := absurd hb List.not_mem_nil
  passed := List.not_mem_nil

/-- How a search can go on: the name is dropped, for it was visited, or it is expanded. -/
theorem step_inl (hstep : s.step h a = .inl s') :
    ∃ name rest, s.queue = name :: rest ∧ name ≠ a ∧
      (name ∈ s.visited ∧ s' = ⟨s.visited, rest⟩ ∨
        name ∉ s.visited ∧ s' = ⟨name :: s.visited, rest ++ h.parents name⟩) := by
  unfold step at hstep
  split at hstep
  · cases hstep
  · rename_i name rest hqueue
    split at hstep
    · cases hstep
    · rename_i hne
      refine ⟨name, rest, hqueue, by simpa using hne, ?_⟩
      split at hstep
      · rename_i hmem
        cases hstep
        exact .inl ⟨by simpa using hmem, rfl⟩
      · rename_i hnew
        cases hstep
        exact .inr ⟨by simpa using hnew, rfl⟩

/-- How a search can end: no name is left, or the one it looks for is found. -/
theorem step_inr {answer : Bool} (hstep : s.step h a = .inr answer) :
    (s.queue = [] ∧ answer = false) ∨ (a ∈ s.queue ∧ answer = true) := by
  unfold step at hstep
  split at hstep
  · rename_i hqueue
    cases hstep
    exact .inl ⟨hqueue, rfl⟩
  · rename_i name rest hqueue
    split at hstep
    · rename_i hname
      cases hstep
      rw [hqueue, beq_iff_eq.mp hname]
      exact .inr ⟨List.mem_cons_self, rfl⟩
    · split at hstep <;> cases hstep

/-- Every step takes a name off the queue and adds none that was not due. -/
theorem due_lt_of_step (hstep : s.step h a = .inl s') : s'.due h < s.due h := by
  obtain ⟨name, rest, hqueue, -, ⟨-, rfl⟩ | ⟨hnew, rfl⟩⟩ := step_inl hstep
  · rw [due, due, hqueue, List.length_cons]
    dsimp only
    omega
  · have hle := length_parents_add_le (h := h) hnew
    rw [due, due, hqueue, List.length_cons, List.length_append]
    dsimp only
    omega

theorem Explores.step (hs : s.Explores h c a) (hstep : s.step h a = .inl s') :
    s'.Explores h c a := by
  obtain ⟨name, rest, hqueue, hne, ⟨hold, rfl⟩ | ⟨hnew, rfl⟩⟩ := step_inl hstep
  · -- what waits without the name is visited or waits as before
    have hwaits {b : String} (hb : b ∈ s.visited ∨ b ∈ s.queue) : b ∈ s.visited ∨ b ∈ rest := by
      rw [hqueue, List.mem_cons] at hb
      rcases hb with hb | rfl | hb
      · exact .inl hb
      · exact .inl hold
      · exact .inr hb
    refine ⟨fun b hb => hs.reached b ?_, hwaits hs.origin, ?_, hs.passed⟩
    · exact hqueue ▸ List.mem_cons_of_mem name hb
    · exact fun b hb d hd => hwaits (hs.parents b hb d hd)
  · have hreach : h.Reaches c name := hs.reached name (hqueue ▸ List.mem_cons_self)
    have hwaits {b : String} (hb : b ∈ s.visited ∨ b ∈ s.queue) :
        b ∈ name :: s.visited ∨ b ∈ rest ++ h.parents name := by
      rw [hqueue] at hb
      simp only [List.mem_cons, List.mem_append] at hb ⊢
      tauto
    refine ⟨?_, hwaits hs.origin, ?_, ?_⟩
    · intro b hb
      rcases List.mem_append.mp hb with hb | hb
      · exact hs.reached b (hqueue ▸ List.mem_cons_of_mem name hb)
      · exact hreach.tail hb
    · intro b hb d hd
      rcases List.mem_cons.mp hb with rfl | hb
      · exact .inr (List.mem_append_right _ hd)
      · exact hwaits (hs.parents b hb d hd)
    · intro ha
      rcases List.mem_cons.mp ha with rfl | ha
      · exact hne rfl
      · exact hs.passed ha

/-- When no name is left, all that the class leads to was visited. -/
theorem Explores.mem_visited (hs : s.Explores h c a) (hqueue : s.queue = []) {b : String}
    (hb : h.Reaches c b) : b ∈ s.visited := by
  have hleft {d : String} (hd : d ∈ s.visited ∨ d ∈ s.queue) : d ∈ s.visited := by
    simpa [hqueue] using hd
  induction hb with
  | refl => exact hleft hs.origin
  | tail _ hparent ih => exact hleft (hs.parents _ ih _ hparent)

theorem Explores.answer (hs : s.Explores h c a) {answer : Bool}
    (hstep : s.step h a = .inr answer) : answer = true ↔ h.Reaches c a := by
  rcases step_inr hstep with ⟨hqueue, rfl⟩ | ⟨ha, rfl⟩
  · refine iff_of_false Bool.false_ne_true fun hreach => ?_
    exact hs.passed (hs.mem_visited hqueue hreach)
  · exact iff_of_true rfl (hs.reached a ha)

/-- A search with a step for each name that is due, and one more, ends with the right answer. -/
theorem Explores.answer? (hs : s.Explores h c a) {steps : Nat} (hsteps : s.due h < steps) :
    ∃ answer, answer? h a steps s = some answer ∧ (answer = true ↔ h.Reaches c a) := by
  induction steps generalizing s with
  | zero => omega
  | succ steps ih =>
    unfold Search.answer?
    cases hstep : s.step h a with
    | inl s' =>
      have hlt := due_lt_of_step hstep
      exact ih (hs.step hstep) (by omega)
    | inr answer => exact ⟨answer, rfl, hs.answer hstep⟩

/-- The number of steps is no limit: a search that may go on for longer gives the same answer. -/
theorem answer?_start {steps : Nat} (hsteps : h.edges + 1 < steps) (c a : String) :
    ∃ answer, answer? h a steps (start c) = some answer ∧ (answer = true ↔ h.Reaches c a) := by
  refine (explores_start c a).answer? ?_
  rw [due, start, edgesBeyond_nil, List.length_singleton]
  omega

end Search

theorem inherits_iff {a b : String} :
    h.inherits a b = true ↔ b = Ty.rootClass ∨ b = a ∨ h.Reaches a b := by
  obtain ⟨answer, hanswer, hiff⟩ := Search.answer?_start (Nat.lt_succ_self (h.edges + 1)) a b
  rw [inherits, hanswer, Option.getD_some]
  simp only [Bool.or_eq_true, beq_iff_eq, hiff]
  grind

theorem Reaches.inherits {a b : String} (hab : h.Reaches a b) : h.inherits a b = true :=
  inherits_iff.mpr (.inr (.inr hab))

/-! ## Lines of superclasses -/

variable (h) in
/-- The type is the class itself, one of its superclasses or the root. -/
def Lineal (name : String) (ty : Ty) : Prop :=
  ty = .object name ∨ ty = Ty.root ∨ ∃ c limit, ty = .object c ∧ c ∈ h.superChain limit name

variable (h) in
/-- The first class is declared as a subclass of the second. -/
def Extends (a b : String) : Prop := (h.get? a).bind (·.superClass) = some b

theorem Extends.mem_parents {a b : String} (hab : h.Extends a b) : b ∈ h.parents a := by
  obtain ⟨c, hc, hsuper⟩ := Option.bind_eq_some_iff.mp hab
  simp [parents, hc, ClassDecl.parents, hsuper]

/-- From a class on, each superclass is above those before it. -/
theorem pairwise_extends (limit : Nat) (name : String) :
    (name :: h.superChain limit name).Pairwise (Relation.TransGen h.Extends) := by
  induction limit generalizing name with
  | zero => exact List.pairwise_singleton _ _
  | succ limit ih =>
    unfold superChain
    split
    · rename_i parent hparent
      refine List.pairwise_cons.mpr ⟨fun b hb => ?_, ih parent⟩
      rcases List.mem_cons.mp hb with rfl | hb
      · exact .single hparent
      · exact .head hparent ((List.pairwise_cons.mp (ih parent)).1 b hb)
    · exact List.pairwise_singleton _ _

theorem pairwise_reaches (limit : Nat) (name : String) :
    (name :: h.superChain limit name).Pairwise h.Reaches :=
  (pairwise_extends limit name).imp fun hab =>
    (hab.lift id fun _ _ => Extends.mem_parents).to_reflTransGen

private theorem superChain_subset {limit limit' : Nat} (hle : limit ≤ limit') (name : String) :
    h.superChain limit name ⊆ h.superChain limit' name := by
  induction limit generalizing limit' name with
  | zero => exact List.nil_subset _
  | succ limit ih =>
    cases limit' with
    | zero => exact absurd hle (Nat.not_succ_le_zero _)
    | succ limit' =>
      unfold superChain
      split
      · exact List.cons_subset_cons _ (ih (Nat.le_of_succ_le_succ hle) _)
      · exact List.Subset.refl _

/-- One walk up the superclasses meets all types of a line but the root. -/
private theorem exists_limit {name : String} {tys : List Ty}
    (hline : ∀ ty ∈ tys, h.Lineal name ty) :
    ∃ limit, ∀ ty ∈ tys, ty = Ty.root ∨ ∃ c ∈ name :: h.superChain limit name, ty = .object c := by
  induction tys with
  | nil => exact ⟨0, fun ty hty => absurd hty List.not_mem_nil⟩
  | cons ty tys ih =>
    obtain ⟨limit, hlimit⟩ := ih fun ty hty => hline ty (List.mem_cons_of_mem _ hty)
    have hmono {limit' : Nat} (hle : limit ≤ limit') : ∀ ty ∈ tys,
        ty = Ty.root ∨ ∃ c ∈ name :: h.superChain limit' name, ty = .object c := by
      intro ty hty
      rcases hlimit ty hty with hroot | ⟨c, hc, heq⟩
      · exact .inl hroot
      · exact .inr ⟨c, List.cons_subset_cons name (superChain_subset hle name) hc, heq⟩
    rcases hline ty List.mem_cons_self with rfl | rfl | ⟨c, limit', rfl, hc⟩
    · exact ⟨limit, List.forall_mem_cons.mpr ⟨.inr ⟨name, List.mem_cons_self, rfl⟩, hlimit⟩⟩
    · exact ⟨limit, List.forall_mem_cons.mpr ⟨.inl rfl, hlimit⟩⟩
    · refine ⟨max limit limit', List.forall_mem_cons.mpr ⟨.inr ⟨c, ?_, rfl⟩, ?_⟩⟩
      · exact List.mem_cons_of_mem _ (superChain_subset (Nat.le_max_right ..) name hc)
      · exact hmono (Nat.le_max_left ..)

theorem isSubtype_object_self (name : String) :
    h.isSubtype (.object name) (.object name) = true := by simp [isSubtype, inherits]

theorem isSubtype_object_root (name : String) : h.isSubtype (.object name) Ty.root = true := by
  simp [isSubtype, inherits, Ty.root]

/-- Of types in one line, one is below all the others. -/
theorem exists_least {name : String} {tys : List Ty} (hne : tys ≠ [])
    (hline : ∀ ty ∈ tys, h.Lineal name ty) :
    ∃ least ∈ tys, ∀ ty ∈ tys, h.isSubtype least ty = true := by
  obtain ⟨limit, hlimit⟩ := exists_limit hline
  -- the first class of the walk that is among the types; the root is above whatever it is
  cases hfind : (name :: h.superChain limit name).find?
      fun c => Ty.object c ∈ tys ∧ Ty.object c ≠ Ty.root with
  | none =>
    have hroot : ∀ ty ∈ tys, ty = Ty.root := by
      intro ty hty
      by_contra hne
      obtain ⟨c, hc, rfl⟩ := (hlimit ty hty).resolve_left hne
      simpa [hty, hne] using List.find?_eq_none.mp hfind c hc
    obtain ⟨ty, hty⟩ := List.exists_mem_of_ne_nil tys hne
    refine ⟨ty, hty, fun ty' hty' => ?_⟩
    rw [hroot ty hty, hroot ty' hty']
    exact isSubtype_object_self _
  | some c =>
    obtain ⟨hc, as, bs, hsplit, has⟩ := List.find?_eq_some_iff_append.mp hfind
    simp only [decide_eq_true_eq] at hc
    refine ⟨.object c, hc.1, fun ty hty => ?_⟩
    by_cases hroot : ty = Ty.root
    · rw [hroot]
      exact isSubtype_object_root c
    obtain ⟨d, hd, rfl⟩ := (hlimit ty hty).resolve_left hroot
    have hpair := hsplit ▸ pairwise_reaches (h := h) limit name
    rw [hsplit] at hd
    rcases List.mem_append.mp hd with hd | hd
    · simpa [hty, hroot] using has d hd
    · rcases List.mem_cons.mp hd with rfl | hd
      · exact isSubtype_object_self d
      · have hreach := (List.pairwise_cons.mp (List.pairwise_append.mp hpair).2.1).1 d hd
        exact hreach.inherits

end Concolic.Hierarchy
