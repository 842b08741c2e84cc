import Concolic.Proofs.Description.Depth
import Mathlib.Data.List.Nodup

/-!
# Descriptions of shared values

While a value is described, what was made of an identity is known from then on, and is put in
wherever the identity is met again.

* `Observed.parts`, `Description.parts`: a value or a description with everything that it contains.
* `Observed.image`: the plain copy of a value, with nothing cut off and nothing put in again.
* `describe_eq_image`: within the limits, a value in which an identity stands for one object or
  array is described by its image. The invariant is that what is known of an identity is the image
  of a part with this identity (`KnowsImages`).
* `Settles`: what describing a stretch of values does to what is known. Nothing known is lost, and
  each object and array that was made is what is known of its identity.
* `eq_of_identity`: so an identity has one description, however much of it is cut off, if nothing
  contains its own identity.
-/

namespace Concolic

namespace Sample

def row : Observed := .array 4 (.object "app/Box") [box, leaf]

/-- A box that holds the row. -/
def bigBox : Observed := .object 5 "app/Box" [("content", row)]

/-- The row stands beside the big box and in it, and the leaf in four places. -/
def rack : Observed :=
  .object 1 "app/Rack" [("row", row), ("single", leaf), ("other", bigBox), ("spare", leaf)]

end Sample

/-! ## Parts -/

namespace Description

/-- The identity of an object or array. -/
def identity? : Description → Option UInt64
  | .object id _ _ => some id
  | .array id _ _ _ => some id
  | _ => none

mutual

/-- All that the description contains, directly or not. -/
def inside : Description → List Description
  | .object _ _ fields => insideFields fields
  | .array _ _ _ elements => insideAll elements
  | _ => []

def insideFields : List (String × Description) → List Description
  | [] => []
  | (_, d) :: fields => (d :: d.inside) ++ insideFields fields

def insideAll : List Description → List Description
  | [] => []
  | d :: ds => (d :: d.inside) ++ insideAll ds

end

/-- The description and all that it contains. -/
def parts (d : Description) : List Description := d :: d.inside

end Description

namespace Observed

/-- The identity of an object or array. -/
def identity? : Observed → Option UInt64
  | .object id _ _ => some id
  | .array id _ _ => some id
  | _ => none

mutual

/-- All that the value contains, directly or not. -/
def inside : Observed → List Observed
  | .object _ _ fields => insideFields fields
  | .array _ _ elements => insideAll elements
  | _ => []

def insideFields : List (String × Observed) → List Observed
  | [] => []
  | (_, v) :: fields => (v :: v.inside) ++ insideFields fields

def insideAll : List Observed → List Observed
  | [] => []
  | v :: vs => (v :: v.inside) ++ insideAll vs

end

/-- The value and all that it contains. -/
def parts (v : Observed) : List Observed := v :: v.inside

mutual

/-- The number of objects and arrays that are nested in one another. -/
def nesting : Observed → Nat
  | .object _ _ fields => nestingFields fields + 1
  | .array _ _ elements => nestingAll elements + 1
  | _ => 0

def nestingFields : List (String × Observed) → Nat
  | [] => 0
  | (_, v) :: fields => max v.nesting (nestingFields fields)

def nestingAll : List Observed → Nat
  | [] => 0
  | v :: vs => max v.nesting (nestingAll vs)

end

variable {limits : Limits} {v x : Observed} {id : UInt64} {known known' known'' : Known}
  {d : Description} {depth : Nat} {describe : Known → Description × Known}
  {whole values values' : List Observed} {made made' : List Description}

/-! ## Plain copies -/

mutual

/-- The value as a description, part by part. -/
def image : Observed → Description
  | .null => .null
  | .bool b => .bool b
  | .byte n => .byte n
  | .char unit => .char unit
  | .short n => .short n
  | .int n => .int n
  | .long n => .long n
  | .float x => .float x
  | .double x => .double x
  | .text _ s => .string s
  | .object id name fields => .object id name (imageFields fields)
  | .array id element elements => .array id element elements.length (imageAll elements)

def imageFields : List (String × Observed) → List (String × Description)
  | [] => []
  | (name, v) :: fields => (name, v.image) :: imageFields fields

def imageAll : List Observed → List Description
  | [] => []
  | v :: vs => v.image :: imageAll vs

end

/-- An identity stands for one object or array. -/
def Consistent (values : List Observed) : Prop :=
  ∀ x ∈ values, ∀ y ∈ values, ∀ id, x.identity? = some id → y.identity? = some id → x = y

/-- Values are consistent if they are among some that have no identity twice. -/
theorem consistent_of_nodup (among : List Observed) (hmem : ∀ x ∈ values, x ∈ among)
    (hnodup : (among.map identity?).Nodup) : Consistent values := by
  intro x hx y hy id hxid hyid
  exact List.inj_on_of_nodup_map hnodup (hmem x hx) (hmem y hy) (hxid.trans hyid.symm)

/-- The arrays are no longer than the limit. -/
def FitLength (limits : Limits) (values : List Observed) : Prop :=
  ∀ id element elements, .array id element elements ∈ values →
    elements.length ≤ limits.arrayLength

/-- What is known of an identity is the image of a value that has it. -/
def KnowsImages (whole : List Observed) (known : Known) : Prop :=
  ∀ id d, known.get? id = some d → ∃ x ∈ whole, x.identity? = some id ∧ x.image = d

/-- One place above the limit: it does not matter whether the value was met before. -/
theorem describeOnce_image (hwhole : Consistent whole) (hx : x ∈ whole)
    (hid : x.identity? = some id) (hdepth : depth < limits.depth) (hknown : KnowsImages whole known)
    (hinside : (describe known).1 = x.image ∧ KnowsImages whole (describe known).2) :
    (describeOnce limits depth id describe known).1 = x.image ∧
      KnowsImages whole (describeOnce limits depth id describe known).2 := by
  cases hget : known.get? id with
  | some d =>
    -- What was described under this identity before is the value itself.
    obtain ⟨y, hy, hyid, rfl⟩ := hknown id d hget
    rw [describeOnce_known hget, hwhole x hx y hy id hid hyid]
    exact ⟨rfl, hknown⟩
  | none =>
    obtain ⟨hd, hknown'⟩ := hinside
    rw [describeOnce_fresh hget hdepth]
    refine ⟨hd, fun id' d' hget' => ?_⟩
    rcases Table.get?_insert_eq_some hget' with ⟨rfl, rfl⟩ | ⟨-, hget'⟩
    · exact ⟨x, hx, hid, hd.symm⟩
    · exact hknown' id' d' hget'

mutual

/-- A part that is within the depth limit is described by its image. -/
theorem describeAt_image (hwhole : Consistent whole) (hlengths : FitLength limits whole) :
    (v : Observed) → (depth : Nat) → (known : Known) →
    (∀ x ∈ v.parts, x ∈ whole) → depth + v.nesting ≤ limits.depth → KnowsImages whole known →
    (describeAt limits v depth known).1 = v.image ∧
      KnowsImages whole (describeAt limits v depth known).2
  | .object id name fields, depth, known, hparts, hdepth, hknown => by
    rw [nesting] at hdepth
    obtain ⟨hd, hknown'⟩ := describeFields_image hwhole hlengths fields (depth + 1) known
      (fun x hx => hparts x (List.mem_cons_of_mem _ hx)) (by omega) hknown
    rw [describeAt]
    refine describeOnce_image hwhole (hparts _ List.mem_cons_self) rfl (by omega) hknown ?_
    rw [image, ← hd]
    exact ⟨rfl, hknown'⟩
  | .array id element elements, depth, known, hparts, hdepth, hknown => by
    rw [nesting] at hdepth
    have harray := hparts _ List.mem_cons_self
    obtain ⟨hd, hknown'⟩ := describeElements_image hwhole hlengths elements limits.arrayLength
      (depth + 1) known (fun x hx => hparts x (List.mem_cons_of_mem _ hx)) (by omega)
      (hlengths _ _ _ harray) hknown
    rw [describeAt]
    refine describeOnce_image hwhole harray rfl (by omega) hknown ?_
    rw [image, ← hd]
    exact ⟨rfl, hknown'⟩
  | .null, _, _, _, _, hknown | .bool _, _, _, _, _, hknown | .byte _, _, _, _, _, hknown
  | .char _, _, _, _, _, hknown | .short _, _, _, _, _, hknown | .int _, _, _, _, _, hknown
  | .long _, _, _, _, _, hknown | .float _, _, _, _, _, hknown | .double _, _, _, _, _, hknown
  | .text _ _, _, _, _, _, hknown => ⟨rfl, hknown⟩

theorem describeFields_image (hwhole : Consistent whole) (hlengths : FitLength limits whole) :
    (fields : List (String × Observed)) → (depth : Nat) → (known : Known) →
    (∀ x ∈ insideFields fields, x ∈ whole) →
    depth + nestingFields fields ≤ limits.depth → KnowsImages whole known →
    (describeFields limits fields depth known).1 = imageFields fields ∧
      KnowsImages whole (describeFields limits fields depth known).2
  | [], _, _, _, _, hknown => ⟨rfl, hknown⟩
  | (name, v) :: fields, depth, known, hparts, hdepth, hknown => by
    rw [nestingFields] at hdepth
    obtain ⟨hd, hv⟩ := describeAt_image hwhole hlengths v depth known
      (fun x hx => hparts x (List.mem_append_left _ hx)) (by omega) hknown
    obtain ⟨hds, hfields⟩ := describeFields_image hwhole hlengths fields depth _
      (fun x hx => hparts x (List.mem_append_right _ hx)) (by omega) hv
    rw [describeFields, imageFields, ← hd, ← hds]
    exact ⟨rfl, hfields⟩

theorem describeElements_image (hwhole : Consistent whole) (hlengths : FitLength limits whole) :
    (vs : List Observed) → (count depth : Nat) → (known : Known) →
    (∀ x ∈ insideAll vs, x ∈ whole) → depth + nestingAll vs ≤ limits.depth →
    vs.length ≤ count → KnowsImages whole known →
    (describeElements limits vs count depth known).1 = imageAll vs ∧
      KnowsImages whole (describeElements limits vs count depth known).2
  | [], _, _, _, _, _, _, hknown => ⟨rfl, hknown⟩
  | v :: vs, count + 1, depth, known, hparts, hdepth, hcount, hknown => by
    rw [nestingAll] at hdepth
    obtain ⟨hd, hv⟩ := describeAt_image hwhole hlengths v depth known
      (fun x hx => hparts x (List.mem_append_left _ hx)) (by omega) hknown
    obtain ⟨hds, hvs⟩ := describeElements_image hwhole hlengths vs count depth _
      (fun x hx => hparts x (List.mem_append_right _ hx)) (by omega)
      (Nat.le_of_succ_le_succ hcount) hv
    rw [describeElements, imageAll, ← hd, ← hds]
    exact ⟨rfl, hvs⟩

end

/-- Within the limits, a value in which an identity stands for one object or array is described by
its image. -/
theorem describe_eq_image (hdepth : v.nesting ≤ limits.depth)
    (hlengths : FitLength limits v.parts) (hids : Consistent v.parts) :
    v.describe limits = v.image := by
  have hempty : KnowsImages v.parts ∅ := nofun
  exact (describeAt_image hids hlengths v 0 ∅ (fun _ hx => hx) (by omega) hempty).1

open Sample in
/-- The rack is as deep as the limit and the row as long. -/
theorem describe_eq_image_rack :
    let limits : Limits := ⟨5, 2⟩
    (rack.nesting = limits.depth ∧ FitLength limits rack.parts ∧
      Consistent rack.parts ∧
      rack.parts.filterMap identity? = [1, 4, 3, 2, 2, 2, 5, 4, 3, 2, 2, 2]) ∧
    rack.describe limits = rack.image := by
  intro limits
  have hnesting : rack.nesting = limits.depth := by decide +kernel
  have hlengths : FitLength limits rack.parts := by
    intro id element elements h
    have hparts : ∀ n ∈ rack.parts.filterMap length?, n ≤ limits.arrayLength := by
      decide +kernel
    exact hparts _ (List.mem_filterMap.mpr ⟨_, h, rfl⟩)
  have hids : Consistent rack.parts := by
    have hparts : rack.parts = [rack, row, box, leaf, leaf, leaf, bigBox, row, box, leaf,
        leaf, leaf] := rfl
    refine consistent_of_nodup [rack, row, box, leaf, bigBox] ?_ (by decide +kernel)
    simp [hparts]
  exact ⟨⟨hnesting, hlengths, hids, by decide +kernel⟩,
    describe_eq_image (Nat.le_of_eq hnesting) hlengths hids⟩

/-! ## One description for each identity -/

/-- The object or array contains one with its own identity. -/
def HoldsItself (x : Observed) : Prop :=
  x.identity? ≠ none ∧ ∃ y ∈ x.inside, y.identity? = x.identity?

instance (x : Observed) : Decidable x.HoldsItself := inferInstanceAs (Decidable (_ ∧ _))

theorem ne_of_not_holdsItself (h : ¬ x.HoldsItself) (hid : x.identity? = some id) {y : Observed}
    (hy : y ∈ x.inside) : y.identity? ≠ some id := by
  intro hyid
  exact h ⟨by rw [hid]; exact Option.some_ne_none id, y, hy, hyid.trans hid.symm⟩

/-- Each object and array among the descriptions is what is known of its identity. -/
def Settled (known : Known) (made : List Description) : Prop :=
  ∀ d ∈ made, ∀ id, d.identity? = some id → known.get? id = some d

/-- So is each object and array in a known description. -/
def Closed (known : Known) : Prop := ∀ id d, known.get? id = some d → Settled known d.parts

theorem Settled.mono (h : Settled known made) (hkept : known.Within known') :
    Settled known' made :=
  fun d hd id hid => hkept.value id d (h d hd id hid)

theorem Settled.append (h : Settled known made) (h' : Settled known made') :
    Settled known (made ++ made') :=
  fun d hd => (List.mem_append.mp hd).elim (h d) (h' d)

/-- The step from `known` to `known'` in which the descriptions were made of the values. -/
structure Settles (values : List Observed) (known known' : Known) (made : List Description) :
    Prop where
  kept : known.Within known'
  added : ∀ id d, known'.get? id = some d →
    known.get? id = some d ∨ ∃ x ∈ values, x.identity? = some id
  closed : Closed known'
  settled : Settled known' made

theorem Settles.refl (hknown : Closed known) (hmade : Settled known made) :
    Settles values known known made :=
  ⟨.refl known, fun _ _ => .inl, hknown, hmade⟩

theorem Settles.append (h : Settles values known known' made)
    (h' : Settles values' known' known'' made') :
    Settles (values ++ values') known known'' (made ++ made') where
  kept := h.kept.trans h'.kept
  added id d hget := by
    rcases h'.added id d hget with hget | ⟨x, hx, hid⟩
    · rcases h.added id d hget with hget | ⟨x, hx, hid⟩
      · exact .inl hget
      · exact .inr ⟨x, List.mem_append_left _ hx, hid⟩
    · exact .inr ⟨x, List.mem_append_right _ hx, hid⟩
  closed := h'.closed
  settled := (h.settled.mono h'.kept).append h'.settled

/-- What has no identity is settled. -/
theorem settled_leaf (hid : d.identity? = none) (hinside : d.inside = []) :
    Settled known d.parts := by
  intro e he id heid
  rw [Description.parts, hinside] at he
  rw [List.mem_singleton.mp he, hid] at heid
  cases heid

/-- A value becomes known with everything in it settled. -/
theorem Settles.insert (h : Settles x.inside known known' d.inside) (hget : known.get? id = none)
    (hfree : ¬ x.HoldsItself) (hx : x.identity? = some id) (hd : d.identity? = some id) :
    Settles x.parts known (known'.insert id d) d.parts := by
  -- What became known in between has the identity of something inside, which is another one.
  have hnew : known'.get? id = none := by
    refine Option.eq_none_iff_forall_ne_some.mpr fun e he => ?_
    rcases h.added id e he with he | ⟨y, hy, hid⟩
    · rw [hget] at he
      cases he
    · exact ne_of_not_holdsItself hfree hx hy hid
  have hkept : known'.Within (known'.insert id d) := Table.within_insert_of_new hnew d
  have hparts : Settled (known'.insert id d) d.parts := by
    intro e he id' hid
    rcases List.mem_cons.mp he with rfl | he
    · obtain rfl := Option.some.inj (hd.symm.trans hid)
      exact Table.get?_insert_self known' id e
    · exact h.settled.mono hkept e he id' hid
  refine ⟨h.kept.trans hkept, fun id' e he => ?_, fun id' e he => ?_, hparts⟩
  · rcases Table.get?_insert_eq_some he with ⟨rfl, -⟩ | ⟨-, he⟩
    · exact .inr ⟨x, List.mem_cons_self, hx⟩
    · rcases h.added id' e he with he | ⟨y, hy, hid⟩
      · exact .inl he
      · exact .inr ⟨y, List.mem_cons_of_mem _ hy, hid⟩
  · rcases Table.get?_insert_eq_some he with ⟨-, rfl⟩ | ⟨-, he⟩
    · exact hparts
    · exact (h.closed id' e he).mono hkept

/-- One place: what is put in or made there is what is known of the identity from then on. -/
theorem settles_describeOnce (hknown : Closed known) (hfree : ¬ x.HoldsItself)
    (hx : x.identity? = some id) (hd : (describe known).1.identity? = some id)
    (hinside : Settles x.inside known (describe known).2 (describe known).1.inside) :
    Settles x.parts known (describeOnce limits depth id describe known).2
      (describeOnce limits depth id describe known).1.parts := by
  cases hget : known.get? id with
  | some e =>
    rw [describeOnce_known hget]
    exact .refl hknown (hknown id e hget)
  | none =>
    rcases Nat.lt_or_ge depth limits.depth with hlt | hge
    · rw [describeOnce_fresh hget hlt]
      exact hinside.insert hget hfree hx hd
    · rw [describeOnce_cut hget hge]
      exact .refl hknown (settled_leaf rfl rfl)

mutual

theorem settles_describeAt : (v : Observed) → (depth : Nat) → (known : Known) →
    (∀ x ∈ v.parts, ¬ x.HoldsItself) → Closed known →
    Settles v.parts known (describeAt limits v depth known).2
      (describeAt limits v depth known).1.parts
  | .object id name fields, depth, known, hfree, hknown => by
    rw [describeAt]
    refine settles_describeOnce hknown (hfree _ List.mem_cons_self) rfl rfl ?_
    exact settles_describeFields fields (depth + 1) known
      (fun x hx => hfree x (List.mem_cons_of_mem _ hx)) hknown
  | .array id element elements, depth, known, hfree, hknown => by
    rw [describeAt]
    refine settles_describeOnce hknown (hfree _ List.mem_cons_self) rfl rfl ?_
    exact settles_describeElements elements limits.arrayLength (depth + 1) known
      (fun x hx => hfree x (List.mem_cons_of_mem _ hx)) hknown
  | .null, _, _, _, hknown | .bool _, _, _, _, hknown | .byte _, _, _, _, hknown
  | .char _, _, _, _, hknown | .short _, _, _, _, hknown | .int _, _, _, _, hknown
  | .long _, _, _, _, hknown | .float _, _, _, _, hknown | .double _, _, _, _, hknown
  | .text _ _, _, _, _, hknown => .refl hknown (settled_leaf rfl rfl)

theorem settles_describeFields : (fields : List (String × Observed)) → (depth : Nat) →
    (known : Known) → (∀ x ∈ insideFields fields, ¬ x.HoldsItself) → Closed known →
    Settles (insideFields fields) known (describeFields limits fields depth known).2
      (Description.insideFields (describeFields limits fields depth known).1)
  | [], _, _, _, hknown => .refl hknown nofun
  | (name, v) :: fields, depth, known, hfree, hknown => by
    have hv := settles_describeAt v depth known
      (fun x hx => hfree x (List.mem_append_left _ hx)) hknown
    exact hv.append (settles_describeFields fields depth _
      (fun x hx => hfree x (List.mem_append_right _ hx)) hv.closed)

theorem settles_describeElements : (vs : List Observed) → (count depth : Nat) →
    (known : Known) → (∀ x ∈ insideAll vs, ¬ x.HoldsItself) → Closed known →
    Settles (insideAll vs) known (describeElements limits vs count depth known).2
      (Description.insideAll (describeElements limits vs count depth known).1)
  | [], _, _, _, _, hknown | _ :: _, 0, _, _, _, hknown => .refl hknown nofun
  | v :: vs, count + 1, depth, known, hfree, hknown => by
    have hv := settles_describeAt v depth known
      (fun x hx => hfree x (List.mem_append_left _ hx)) hknown
    exact hv.append (settles_describeElements vs count depth _
      (fun x hx => hfree x (List.mem_append_right _ hx)) hv.closed)

end

/-- If no object or array contains one with its own identity, then objects and arrays with one
identity in a description are the same, whatever is cut off. -/
theorem eq_of_identity (limits : Limits) (hfree : ∀ x ∈ v.parts, ¬ x.HoldsItself)
    {d e : Description} (hd : d ∈ (v.describe limits).parts)
    (he : e ∈ (v.describe limits).parts) (hdid : d.identity? = some id)
    (heid : e.identity? = some id) : d = e := by
  have hempty : Closed ∅ := nofun
  have hsettled : Settled (describeAt limits v 0 ∅).2 (v.describe limits).parts :=
    (settles_describeAt v 0 ∅ hfree hempty).settled
  exact Option.some.inj ((hsettled d hd id hdid).symm.trans (hsettled e he id heid))

open Sample in
/-- The row is cut to its first element, and in it the leaf is met beyond the limit and cut off.
Then the leaf is described on its own and put in again, and so is the row in the big box. -/
theorem eq_of_identity_rack :
    let made := (rack.describe ⟨3, 1⟩).parts
    (∀ x ∈ rack.parts, ¬ x.HoldsItself) ∧
      made.map Description.identity? =
        [some 1, some 4, some 3, none, some 2, some 5, some 4, some 3, none, some 2] ∧
      made[1]? = made[6]? ∧ made[2]? = made[7]? ∧ made[4]? = made[9]? := by
  intro made
  have hfree : ∀ x ∈ rack.parts, ¬ x.HoldsItself := by decide +kernel
  have hids : made.map Description.identity? =
      [some 1, some 4, some 3, none, some 2, some 5, some 4, some 3, none, some 2] := by
    decide +kernel
  have hsame (id : UInt64) {i j : Nat} (hi : (made.map Description.identity?)[i]? = some (some id))
      (hj : (made.map Description.identity?)[j]? = some (some id)) : made[i]? = made[j]? := by
    rw [List.getElem?_map, Option.map_eq_some_iff] at hi hj
    obtain ⟨d, hd, hdid⟩ := hi
    obtain ⟨e, he, heid⟩ := hj
    rw [hd, he, eq_of_identity ⟨3, 1⟩ hfree (List.mem_of_getElem? hd) (List.mem_of_getElem? he)
      hdid heid]
  refine ⟨hfree, hids, hsame 4 ?_ ?_, hsame 3 ?_ ?_, hsame 2 ?_ ?_⟩ <;> rw [hids] <;> rfl

end Observed

end Concolic
