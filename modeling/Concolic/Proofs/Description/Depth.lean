import Concolic.Description.Describe
import Concolic.Proofs.Table

/-!
# How deep descriptions nest

A description is made within a depth limit: an object or array that is met beyond it becomes `null`.
But an identity that was described before is not described again, and its description is put in
wherever the identity is met, however deep. It was cut to the limit for the place where it was made,
so at a deeper place it may reach beyond the limit.

* `Description.depth`: how many objects and arrays are nested in a description.
* `Observed.Reuse`, `Observed.reuses`: the places where a description is put in again. They alone
  make a description deeper than the limit (`depth_describeAt_iff`).
* `Observed.NeverDeeper`: no identity is met again at a deeper place. Then the limit is kept. The
  invariant is that each known description fits at all places of its identity that are still to come
  (`Fits`).
-/

namespace Concolic

namespace Sample

def leaf : Observed := .object 2 "app/Leaf" []

/-- A box that holds the leaf. -/
def box : Observed := .object 3 "app/Box" [("content", leaf)]

def leafFirst : Observed := .object 1 "app/Pair" [("first", leaf), ("second", box)]

def boxFirst : Observed := .object 1 "app/Pair" [("first", box), ("second", leaf)]

end Sample

/-! ## Depth -/

namespace Description

mutual

/-- The number of objects and arrays that are nested in one another. -/
def depth : Description → Nat
  | .object _ _ fields => depthFields fields + 1
  | .array _ _ _ elements => depthAll elements + 1
  | _ => 0

def depthFields : List (String × Description) → Nat
  | [] => 0
  | (_, d) :: fields => max d.depth (depthFields fields)

def depthAll : List Description → Nat
  | [] => 0
  | d :: ds => max d.depth (depthAll ds)

end

end Description

namespace Observed

variable {limits : Limits} {v : Observed} {id : UInt64} {known : Known} {d : Description}
  {depth n : Nat} {describe : Known → Description × Known}

/-! ## Where an identity is met -/

theorem describeOnce_known (h : known.get? id = some d) :
    describeOnce limits depth id describe known = (d, known) := by
  rw [describeOnce, h]

theorem describeOnce_cut (h : known.get? id = none) (hdepth : limits.depth ≤ depth) :
    describeOnce limits depth id describe known = (.null, known) := by
  rw [describeOnce, h]
  exact if_pos hdepth

theorem describeOnce_fresh (h : known.get? id = none) (hdepth : depth < limits.depth) :
    describeOnce limits depth id describe known =
      ((describe known).1, (describe known).2.insert id (describe known).1) := by
  rw [describeOnce, h]
  exact if_neg (Nat.not_le.mpr hdepth)

/-! ## Descriptions that are put in again -/

/-- A description that is put in again, nested in as many objects and arrays. -/
structure Reuse where
  nesting : Nat
  description : Description

/-- The depth that the description reaches where it is put in. -/
def Reuse.reach (r : Reuse) : Nat := r.nesting + r.description.depth

/-- A known description is put in again. Otherwise it depends on what is inside, unless that is
cut off. -/
def reusesOnce (limits : Limits) (depth : Nat) (id : UInt64) (known : Known)
    (inside : List Reuse) : List Reuse :=
  match known.get? id with
  | some d => [⟨depth, d⟩]
  | none => if limits.depth ≤ depth then [] else inside

mutual

/-- The descriptions that are put in again while a value is described. -/
def reusesAt (limits : Limits) : Observed → (depth : Nat) → Known → List Reuse
  | .object id _ fields, depth, known =>
    reusesOnce limits depth id known (reusesFields limits fields (depth + 1) known)
  | .array id _ elements, depth, known =>
    reusesOnce limits depth id known
      (reusesElements limits elements limits.arrayLength (depth + 1) known)
  | _, _, _ => []

def reusesFields (limits : Limits) :
    List (String × Observed) → (depth : Nat) → Known → List Reuse
  | [], _, _ => []
  | (_, v) :: fields, depth, known =>
    reusesAt limits v depth known ++
      reusesFields limits fields depth (describeAt limits v depth known).2

def reusesElements (limits : Limits) :
    List Observed → (count depth : Nat) → Known → List Reuse
  | [], _, _, _ => []
  | _ :: _, 0, _, _ => []
  | v :: vs, count + 1, depth, known =>
    reusesAt limits v depth known ++
      reusesElements limits vs count depth (describeAt limits v depth known).2

end

/-- The descriptions that are put in again when a value is described. -/
def reuses (limits : Limits) (v : Observed) : List Reuse := reusesAt limits v 0 ∅

/-- The bound is kept where nothing is nested. -/
theorem depth_zero_iff (hn : limits.depth ≤ n) (hdepth : depth ≤ limits.depth) :
    depth + 0 ≤ n ↔ ∀ r ∈ ([] : List Reuse), r.reach ≤ n :=
  iff_of_true (Nat.le_trans hdepth hn) fun _ hr => absurd hr List.not_mem_nil

/-- Where an identity is met, the bound is kept just if it is by what is put in again. A value that
is described there is one deeper than what is inside. -/
theorem depth_describeOnce_iff {inside : List Reuse} (hn : limits.depth ≤ n)
    (hdepth : depth ≤ limits.depth)
    (hinside : depth < limits.depth →
      (depth + (describe known).1.depth ≤ n ↔ ∀ r ∈ inside, r.reach ≤ n)) :
    depth + (describeOnce limits depth id describe known).1.depth ≤ n ↔
      ∀ r ∈ reusesOnce limits depth id known inside, r.reach ≤ n := by
  unfold reusesOnce
  cases hget : known.get? id with
  | some d =>
    rw [describeOnce_known hget]
    simp [Reuse.reach]
  | none =>
    rcases Nat.lt_or_ge depth limits.depth with hlt | hge
    · rw [describeOnce_fresh hget hlt]
      simpa [Nat.not_le.mpr hlt] using hinside hlt
    · rw [describeOnce_cut hget hge, if_pos hge]
      exact depth_zero_iff hn hdepth

mutual

/-- What is described below the limit stays within a bound just if what is put in again does. -/
theorem depth_describeAt_iff (hn : limits.depth ≤ n) : (v : Observed) → (depth : Nat) →
    (known : Known) → depth ≤ limits.depth →
    (depth + (describeAt limits v depth known).1.depth ≤ n ↔
      ∀ r ∈ reusesAt limits v depth known, r.reach ≤ n)
  | .object id name fields, depth, known, hdepth => by
    rw [describeAt, reusesAt]
    refine depth_describeOnce_iff hn hdepth fun hlt => ?_
    rw [← depth_describeFields_iff hn fields (depth + 1) known hlt]
    simp only [Description.depth]
    omega
  | .array id element elements, depth, known, hdepth => by
    rw [describeAt, reusesAt]
    refine depth_describeOnce_iff hn hdepth fun hlt => ?_
    rw [← depth_describeElements_iff hn elements limits.arrayLength (depth + 1) known hlt]
    simp only [Description.depth]
    omega
  | .null, _, _, hdepth | .bool _, _, _, hdepth | .byte _, _, _, hdepth | .char _, _, _, hdepth
  | .short _, _, _, hdepth | .int _, _, _, hdepth | .long _, _, _, hdepth
  | .float _, _, _, hdepth | .double _, _, _, hdepth | .text _ _, _, _, hdepth => by
    exact depth_zero_iff hn hdepth

theorem depth_describeFields_iff (hn : limits.depth ≤ n) :
    (fields : List (String × Observed)) → (depth : Nat) → (known : Known) →
    depth ≤ limits.depth →
    (depth + Description.depthFields (describeFields limits fields depth known).1 ≤ n ↔
      ∀ r ∈ reusesFields limits fields depth known, r.reach ≤ n)
  | [], depth, known, hdepth => by
    exact depth_zero_iff hn hdepth
  | (name, v) :: fields, depth, known, hdepth => by
    have hv := depth_describeAt_iff hn v depth known hdepth
    have hfields :=
      depth_describeFields_iff hn fields depth (describeAt limits v depth known).2 hdepth
    rw [describeFields, reusesFields, List.forall_mem_append, ← hv, ← hfields]
    simp only [Description.depthFields]
    omega

theorem depth_describeElements_iff (hn : limits.depth ≤ n) :
    (vs : List Observed) → (count depth : Nat) → (known : Known) → depth ≤ limits.depth →
    (depth + Description.depthAll (describeElements limits vs count depth known).1 ≤ n ↔
      ∀ r ∈ reusesElements limits vs count depth known, r.reach ≤ n)
  | [], _, depth, known, hdepth | _ :: _, 0, depth, known, hdepth => by
    exact depth_zero_iff hn hdepth
  | v :: vs, count + 1, depth, known, hdepth => by
    have hv := depth_describeAt_iff hn v depth known hdepth
    have hvs :=
      depth_describeElements_iff hn vs count depth (describeAt limits v depth known).2 hdepth
    rw [describeElements, reusesElements, List.forall_mem_append, ← hv, ← hvs]
    simp only [Description.depthAll]
    omega

end

/-! ## Values without deeper repeats -/

/-- An identity and the number of objects and arrays that it is nested in. -/
abbrev Place := UInt64 × Nat

mutual

/-- The identities of the objects and arrays in a value, in the order in which they are met. -/
def placesAt : Observed → (depth : Nat) → List Place
  | .object id _ fields, depth => (id, depth) :: placesFields fields (depth + 1)
  | .array id _ elements, depth => (id, depth) :: placesAll elements (depth + 1)
  | _, _ => []

def placesFields : List (String × Observed) → (depth : Nat) → List Place
  | [], _ => []
  | (_, v) :: fields, depth => placesAt v depth ++ placesFields fields depth

def placesAll : List Observed → (depth : Nat) → List Place
  | [], _ => []
  | v :: vs, depth => placesAt v depth ++ placesAll vs depth

end

/-- A later place of an identity is not deeper than an earlier one. -/
def Ordered (places : List Place) : Prop := places.Pairwise fun p q => p.1 = q.1 → q.2 ≤ p.2

instance (places : List Place) : Decidable (Ordered places) :=
  inferInstanceAs (Decidable (List.Pairwise _ _))

/-- No identity in the value is met again at a deeper place. -/
def NeverDeeper (v : Observed) : Prop := Ordered (placesAt v 0)

/-- The known descriptions fit at the places of their identities. -/
def Fits (limits : Limits) (places : List Place) (known : Known) : Prop :=
  ∀ p ∈ places, ∀ d, known.get? p.1 = some d → p.2 + d.depth ≤ limits.depth

variable {places rest : List Place}

theorem Fits.sublist (h : Fits limits places known) (hsub : rest.Sublist places) :
    Fits limits rest known := fun p hp => h p (hsub.mem hp)

/-- A description fits at all later places of its identity if it fits where it was made. -/
theorem Fits.insert (h : Fits limits rest known) (hfirst : ∀ q ∈ rest, id = q.1 → q.2 ≤ depth)
    (hd : depth + d.depth ≤ limits.depth) : Fits limits rest (known.insert id d) := by
  intro p hp d' hget
  rcases Table.get?_insert_eq_some hget with ⟨hid, rfl⟩ | ⟨-, hget⟩
  · have := hfirst p hp hid.symm
    omega
  · exact h p hp d' hget

/-- One place: what is made there fits there, and what is known afterwards fits at the places that
come later. -/
theorem fits_describeOnce (hplaces : Ordered ((id, depth) :: (places ++ rest)))
    (hknown : Fits limits ((id, depth) :: (places ++ rest)) known) (hdepth : depth ≤ limits.depth)
    (hinside : depth < limits.depth → depth + (describe known).1.depth ≤ limits.depth ∧
      Fits limits rest (describe known).2) :
    depth + (describeOnce limits depth id describe known).1.depth ≤ limits.depth ∧
      Fits limits rest (describeOnce limits depth id describe known).2 := by
  have hrest : Fits limits rest known :=
    hknown.sublist ((List.sublist_append_right _ _).cons _)
  cases hget : known.get? id with
  | some d =>
    rw [describeOnce_known hget]
    exact ⟨hknown (id, depth) List.mem_cons_self d hget, hrest⟩
  | none =>
    rcases Nat.lt_or_ge depth limits.depth with hlt | hge
    · obtain ⟨hd, hrest⟩ := hinside hlt
      rw [describeOnce_fresh hget hlt]
      refine ⟨hd, hrest.insert (fun q hq => ?_) hd⟩
      exact List.rel_of_pairwise_cons hplaces (List.mem_append_right _ hq)
    · rw [describeOnce_cut hget hge]
      exact ⟨hdepth, hrest⟩

mutual

theorem fits_describeAt : (v : Observed) → (depth : Nat) → (rest : List Place) →
    (known : Known) → Ordered (placesAt v depth ++ rest) →
    Fits limits (placesAt v depth ++ rest) known → depth ≤ limits.depth →
    depth + (describeAt limits v depth known).1.depth ≤ limits.depth ∧
      Fits limits rest (describeAt limits v depth known).2
  | .object id name fields, depth, rest, known, hplaces, hknown, hdepth => by
    rw [placesAt, List.cons_append] at hplaces hknown
    rw [describeAt]
    refine fits_describeOnce hplaces hknown hdepth fun hlt => ?_
    obtain ⟨hd, hrest⟩ := fits_describeFields fields (depth + 1) rest known hplaces.of_cons
      (hknown.sublist (List.sublist_cons_self _ _)) hlt
    refine ⟨?_, hrest⟩
    simp only [Description.depth]
    omega
  | .array id element elements, depth, rest, known, hplaces, hknown, hdepth => by
    rw [placesAt, List.cons_append] at hplaces hknown
    rw [describeAt]
    refine fits_describeOnce hplaces hknown hdepth fun hlt => ?_
    obtain ⟨hd, hrest⟩ := fits_describeElements elements limits.arrayLength (depth + 1) rest known
      hplaces.of_cons (hknown.sublist (List.sublist_cons_self _ _)) hlt
    refine ⟨?_, hrest⟩
    simp only [Description.depth]
    omega
  | .null, _, _, _, _, hknown, hdepth | .bool _, _, _, _, _, hknown, hdepth
  | .byte _, _, _, _, _, hknown, hdepth | .char _, _, _, _, _, hknown, hdepth
  | .short _, _, _, _, _, hknown, hdepth | .int _, _, _, _, _, hknown, hdepth
  | .long _, _, _, _, _, hknown, hdepth | .float _, _, _, _, _, hknown, hdepth
  | .double _, _, _, _, _, hknown, hdepth | .text _ _, _, _, _, _, hknown, hdepth =>
    ⟨hdepth, hknown⟩

theorem fits_describeFields : (fields : List (String × Observed)) → (depth : Nat) →
    (rest : List Place) → (known : Known) → Ordered (placesFields fields depth ++ rest) →
    Fits limits (placesFields fields depth ++ rest) known → depth ≤ limits.depth →
    depth + Description.depthFields (describeFields limits fields depth known).1 ≤ limits.depth ∧
      Fits limits rest (describeFields limits fields depth known).2
  | [], depth, rest, known, _, hknown, hdepth => ⟨hdepth, hknown⟩
  | (name, v) :: fields, depth, rest, known, hplaces, hknown, hdepth => by
    rw [placesFields, List.append_assoc] at hplaces hknown
    obtain ⟨hd, hfields⟩ := fits_describeAt v depth _ known hplaces hknown hdepth
    obtain ⟨hds, hrest⟩ := fits_describeFields fields depth rest _
      (hplaces.sublist (List.sublist_append_right _ _)) hfields hdepth
    rw [describeFields]
    refine ⟨?_, hrest⟩
    simp only [Description.depthFields]
    omega

theorem fits_describeElements : (vs : List Observed) → (count depth : Nat) →
    (rest : List Place) → (known : Known) → Ordered (placesAll vs depth ++ rest) →
    Fits limits (placesAll vs depth ++ rest) known → depth ≤ limits.depth →
    depth + Description.depthAll (describeElements limits vs count depth known).1 ≤
        limits.depth ∧
      Fits limits rest (describeElements limits vs count depth known).2
  | [], _, depth, rest, known, _, hknown, hdepth => ⟨hdepth, hknown⟩
  | _ :: _, 0, depth, rest, known, _, hknown, hdepth =>
    ⟨hdepth, hknown.sublist (List.sublist_append_right _ _)⟩
  | v :: vs, count + 1, depth, rest, known, hplaces, hknown, hdepth => by
    rw [placesAll, List.append_assoc] at hplaces hknown
    obtain ⟨hd, hvs⟩ := fits_describeAt v depth _ known hplaces hknown hdepth
    obtain ⟨hds, hrest⟩ := fits_describeElements vs count depth rest _
      (hplaces.sublist (List.sublist_append_right _ _)) hvs hdepth
    rw [describeElements]
    refine ⟨?_, hrest⟩
    simp only [Description.depthAll]
    omega

end

/-! ## The depth limit -/

theorem NeverDeeper.depth_describe_le (h : v.NeverDeeper) :
    (v.describe limits).depth ≤ limits.depth := by
  have hempty : Fits limits (placesAt v 0 ++ []) ∅ := by
    intro p _ d hget
    rw [Table.get?_empty] at hget
    cases hget
  have hplaces : Ordered (placesAt v 0 ++ []) := by rwa [List.append_nil]
  obtain ⟨hd, -⟩ := fits_describeAt v 0 [] ∅ hplaces hempty (Nat.zero_le _)
  rwa [Nat.zero_add] at hd

/-- A description is deeper than the limit, or than any bound above it, just because of descriptions
that are put in again: it stays within the bound just if each of these does where it is put in. And
it stays within the limit if no identity in the value is met again at a deeper place. -/
theorem depth_describe_iff (limits : Limits) (v : Observed) :
    (∀ n, limits.depth ≤ n →
      ((v.describe limits).depth ≤ n ↔ ∀ r ∈ v.reuses limits, r.reach ≤ n)) ∧
    (v.NeverDeeper → (v.describe limits).depth ≤ limits.depth) := by
  refine ⟨fun n hn => ?_, NeverDeeper.depth_describe_le⟩
  have h := depth_describeAt_iff hn v 0 ∅ (Nat.zero_le _)
  rwa [Nat.zero_add] at h

/-- The leaf is described in the box and put in again beside it. -/
theorem depth_describe_iff_boxFirst :
    let limits : Limits := ⟨3, 10⟩
    (limits.depth ≤ 3 ∧ Sample.boxFirst.NeverDeeper ∧
      (Sample.boxFirst.reuses limits).map Reuse.reach = [2]) ∧
    ((Sample.boxFirst.describe limits).depth ≤ 3 ↔
      ∀ r ∈ Sample.boxFirst.reuses limits, r.reach ≤ 3) ∧
    (Sample.boxFirst.describe limits).depth ≤ 3 := by
  intro limits
  have hordered : Sample.boxFirst.NeverDeeper := by
    unfold NeverDeeper
    decide +kernel
  obtain ⟨hreuses, hnever⟩ := depth_describe_iff limits Sample.boxFirst
  exact ⟨⟨Nat.le_refl 3, hordered, by decide +kernel⟩, hreuses 3 (Nat.le_refl 3), hnever hordered⟩

/-- The leaf is described beside the box and put in again inside, where nothing new would be
described. -/
theorem depth_describe_leafFirst :
    (Sample.leafFirst.describe ⟨2, 10⟩).depth = 3 ∧
      (Sample.leafFirst.reuses ⟨2, 10⟩).map Reuse.reach = [3] := by
  decide +kernel

end Observed

end Concolic
