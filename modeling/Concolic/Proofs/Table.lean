import Concolic.Table
import Mathlib.Data.List.Pairwise

/-!
# Laws of finite maps

* `Table.Within t u`: the entries of `t` are all in `u`, and `u` finds the same value for every key
  that `t` has. It is a preorder, and `insertNew` only moves up in it (`within_insertNew`): an entry
  that is there is never replaced.
* `mem_insert`, `mem_keys_insertNew`: an insertion adds nothing but its entry.
* `get?_insert_self`, `get?_insert_of_ne`: what an insertion changes, for keys whose `==` is
  equality.
* `get?_ofList`: a table finds what it was made of.
* `Table.Distinct t`: no two entries have the same key. Such a table is the list of its entries
  (`ofList_eq`), and their order does not matter: with the same entries it is the same finite map
  (`Table.Agrees`, `Distinct.agrees`).
* `get?_union`, `union_assoc`: a union finds the entries of the first table before those of the
  second, and unions can be taken in any grouping.
* `mapValues f t`: the same keys with other values, which are found and put in as the old ones are
  (`get?_mapValues`, `mapValues_insert`).
-/

namespace Concolic.Table

variable {α β : Type}

section Within

variable [BEq α]

@[simp] theorem get?_empty (k : α) : (∅ : Table α β).get? k = none := rfl

/-- Every entry of the first table stands unchanged in the second. -/
structure Within (t u : Table α β) : Prop where
  entry : ∀ e ∈ t.entries, e ∈ u.entries
  value : ∀ k v, t.get? k = some v → u.get? k = some v

theorem Within.refl (t : Table α β) : t.Within t := ⟨fun _ h => h, fun _ _ h => h⟩

theorem Within.trans {t u w : Table α β} (h : t.Within u) (h' : u.Within w) : t.Within w :=
  ⟨fun e he => h'.entry e (h.entry e he), fun k v hv => h'.value k v (h.value k v hv)⟩

/-- Entries put behind the others are found last. -/
theorem within_append (es es' : List (α × β)) :
    (⟨es⟩ : Table α β).Within ⟨es ++ es'⟩ := by
  refine ⟨fun e he => List.mem_append_left _ he, fun k v hv => ?_⟩
  unfold get? at hv ⊢
  obtain ⟨e, he, rfl⟩ := Option.map_eq_some_iff.mp hv
  rw [List.find?_append, he]
  rfl

theorem within_insertNew (t : Table α β) (k : α) (v : β) : t.Within (t.insertNew k v) := by
  unfold insertNew
  split
  · exact Within.refl t
  · exact within_append t.entries [(k, v)]

/-- An entry with a key that is not there is put behind the others. -/
theorem insert_of_new {t : Table α β} {k : α} (h : t.contains k = false) (v : β) :
    t.insert k v = ⟨t.entries ++ [(k, v)]⟩ := by
  rw [insert, h, if_neg Bool.false_ne_true]

theorem insertNew_of_new {t : Table α β} {k : α} (h : t.contains k = false) (v : β) :
    t.insertNew k v = ⟨t.entries ++ [(k, v)]⟩ := by
  rw [insertNew, h, if_neg Bool.false_ne_true]

theorem contains_of_get?_none {t : Table α β} {k : α} (h : t.get? k = none) :
    t.contains k = false := by
  rw [contains_eq_isSome_get?, h]
  rfl

theorem within_insert_of_new {t : Table α β} {k : α} (h : t.get? k = none) (v : β) :
    t.Within (t.insert k v) := by
  rw [insert_of_new (contains_of_get?_none h)]
  exact within_append t.entries [(k, v)]

end Within

section Entries

variable [BEq α] {t : Table α β} {k k' : α} {v : β}

/-- The entries after an insertion are the new one and old ones. -/
theorem mem_insert {e : α × β} (h : e ∈ (t.insert k v).entries) : e = (k, v) ∨ e ∈ t.entries := by
  unfold insert at h
  split at h
  · obtain ⟨e', he', rfl⟩ := List.mem_map.mp h
    by_cases hk : (e'.1 == k) = true
    · simp [hk]
    · simp [hk, he']
  · rcases List.mem_append.mp h with h | h
    · exact .inr h
    · exact .inl (List.mem_singleton.mp h)

theorem mem_keys_insert (h : k' ∈ (t.insert k v).keys) : k' = k ∨ k' ∈ t.keys := by
  obtain ⟨e, he, rfl⟩ := List.mem_map.mp h
  rcases mem_insert he with rfl | he
  · exact .inl rfl
  · exact .inr (List.mem_map_of_mem he)

theorem mem_insertNew {e : α × β} (h : e ∈ (t.insertNew k v).entries) :
    e = (k, v) ∨ e ∈ t.entries := by
  unfold insertNew at h
  split at h
  · exact .inr h
  · rcases List.mem_append.mp h with h | h
    · exact .inr h
    · exact .inl (List.mem_singleton.mp h)

theorem mem_keys_insertNew (h : k' ∈ (t.insertNew k v).keys) : k' = k ∨ k' ∈ t.keys := by
  obtain ⟨e, he, rfl⟩ := List.mem_map.mp h
  rcases mem_insertNew he with rfl | he
  · exact .inl rfl
  · exact .inr (List.mem_map_of_mem he)

theorem mem_ofList {es : List (α × β)} {e : α × β} (h : e ∈ (ofList es).entries) : e ∈ es := by
  have hfold (es : List (α × β)) (t : Table α β)
      (h : e ∈ (es.foldl (fun t e => t.insert e.1 e.2) t).entries) : e ∈ es ∨ e ∈ t.entries := by
    induction es generalizing t with
    | nil => exact .inr h
    | cons e' es ih =>
      rcases ih (t.insert e'.1 e'.2) h with h | h
      · exact .inl (List.mem_cons_of_mem e' h)
      · rcases mem_insert h with rfl | h
        · exact .inl List.mem_cons_self
        · exact .inr h
  rcases hfold es empty h with h | h
  · exact h
  · cases h

theorem get?_eq_none (h : ∀ k' ∈ t.keys, (k' == k) = false) : t.get? k = none := by
  unfold get?
  rw [Option.map_eq_none_iff, List.find?_eq_none]
  intro e he
  rw [h e.1 (List.mem_map_of_mem he)]
  exact Bool.false_ne_true

/-- After the insertion of a new entry its key is found, with the old value if there was one. -/
theorem get?_insertNew_self [ReflBEq α] (t : Table α β) (k : α) (v : β) :
    (t.insertNew k v).get? k = some ((t.get? k).getD v) := by
  cases hget : t.get? k with
  | some w => exact (within_insertNew t k v).value k w hget
  | none =>
    have hnone : t.entries.find? (fun e => e.1 == k) = none := Option.map_eq_none_iff.mp hget
    rw [insertNew_of_new (contains_of_get?_none hget)]
    simp [get?, List.find?_append, hnone]

/-- The insertion of a new entry leaves other keys alone. -/
theorem get?_insertNew_of_ne (t : Table α β) (v : β) (h : (k == k') = false) :
    (t.insertNew k v).get? k' = t.get? k' := by
  unfold insertNew
  split
  · rfl
  · simp [get?, List.find?_append, h]

/-- What is found after the insertion of a new entry was there or is the new value. -/
theorem get?_insertNew_eq_some {w : β} (h : (t.insertNew k v).get? k' = some w) :
    t.get? k' = some w ∨ (k == k') = true ∧ w = v := by
  cases hk : k == k' with
  | false => exact .inl ((get?_insertNew_of_ne t v hk).symm.trans h)
  | true =>
    cases hget : t.get? k' with
    | some w' => exact .inl (((within_insertNew t k v).value k' w' hget).symm.trans h)
    | none =>
      obtain ⟨e, he, rfl⟩ := Option.map_eq_some_iff.mp h
      have hnone := Option.map_eq_none_iff.mp hget
      rcases mem_insertNew (List.mem_of_find?_eq_some he) with rfl | hmem
      · exact .inr ⟨rfl, rfl⟩
      · have hkey := List.find?_some he
        exact absurd hkey (List.find?_eq_none.mp hnone e hmem)

end Entries

section Lawful

variable [BEq α] [LawfulBEq α]

theorem mem_entries_of_get? {t : Table α β} {k : α} {v : β} (h : t.get? k = some v) :
    (k, v) ∈ t.entries := by
  obtain ⟨e, he, rfl⟩ := Option.map_eq_some_iff.mp h
  have hkey := List.find?_some he
  rw [← eq_of_beq hkey]
  exact List.mem_of_find?_eq_some he

theorem get?_insert_self (t : Table α β) (k : α) (v : β) : (t.insert k v).get? k = some v := by
  unfold insert
  split
  · next h =>
    obtain ⟨e, he, hk⟩ := List.any_eq_true.mp h
    unfold get?
    rw [List.find?_map]
    have hsame : ((fun e : α × β => e.1 == k) ∘ fun e => if e.1 == k then (k, v) else e) =
        fun e => e.1 == k := by
      funext x
      by_cases hx : x.1 == k <;> simp [hx]
    rw [hsame]
    cases hf : t.entries.find? (fun e => e.1 == k) with
    | none => exact absurd hk (List.find?_eq_none.mp hf e he)
    | some x =>
      have hx : x.1 = k := by simpa using List.find?_some hf
      simp [hx]
  · next h =>
    have hf : t.entries.find? (fun e => e.1 == k) = none := by
      rw [List.find?_eq_none]
      intro e he hk
      exact h (List.any_eq_true.mpr ⟨e, he, hk⟩)
    simp [get?, List.find?_append, hf]

theorem get?_insert_of_ne (t : Table α β) {k k' : α} (v : β) (h : k' ≠ k) :
    (t.insert k v).get? k' = t.get? k' := by
  have hkk : (k == k') = false := by simpa using Ne.symm h
  unfold insert
  split
  · unfold get?
    rw [List.find?_map, Option.map_map]
    have hsame : ((fun e : α × β => e.1 == k') ∘ fun e => if e.1 == k then (k, v) else e) =
        fun e => e.1 == k' := by
      funext x
      by_cases hx : x.1 = k
      · simp [hx, hkk]
      · simp [hx]
    rw [hsame]
    refine Option.map_congr fun x hx => ?_
    have hx' : x.1 = k' := by simpa using List.find?_some hx
    simp [hx', h]
  · simp [get?, List.find?_append, hkk]

/-- What is found after an insertion is what was put in, or was there under another key. -/
theorem get?_insert_eq_some {t : Table α β} {k k' : α} {v w : β}
    (h : (t.insert k v).get? k' = some w) : (k' = k ∧ w = v) ∨ (k' ≠ k ∧ t.get? k' = some w) := by
  by_cases hk : k' = k
  · subst hk
    rw [get?_insert_self] at h
    exact .inl ⟨rfl, (Option.some.inj h).symm⟩
  · rw [get?_insert_of_ne t v hk] at h
    exact .inr ⟨hk, h⟩

private theorem get?_foldl_insert {es : List (α × β)} {t : Table α β} {k : α} {v : β}
    (hall : ∀ w, (k, w) ∈ es → w = v) (h : t.get? k = some v ∨ (k, v) ∈ es) :
    (es.foldl (fun t e => t.insert e.1 e.2) t).get? k = some v := by
  induction es generalizing t with
  | nil =>
    rcases h with h | h
    · exact h
    · cases h
  | cons e es ih =>
    obtain ⟨k', w⟩ := e
    refine ih (fun w' hw' => hall w' (List.mem_cons_of_mem _ hw')) ?_
    by_cases hk : k' = k
    · subst hk
      have hw : w = v := hall w List.mem_cons_self
      subst hw
      exact .inl (get?_insert_self t k' w)
    · rcases h with h | h
      · refine .inl ?_
        rw [get?_insert_of_ne t w (Ne.symm hk)]
        exact h
      · rcases List.mem_cons.mp h with h | h
        · cases h
          exact absurd rfl hk
        · exact .inr h

/-- A table finds what it was made of, if that is the only value of the key. -/
theorem get?_ofList {es : List (α × β)} {k : α} {v : β} (h : (k, v) ∈ es)
    (hall : ∀ w, (k, w) ∈ es → w = v) : (ofList es).get? k = some v :=
  get?_foldl_insert hall (.inr h)

end Lawful

section Distinct

variable [BEq α] {t u : Table α β} {k : α} {v : β}

/-- No two entries have the same key. -/
def Distinct (t : Table α β) : Prop := t.entries.Pairwise fun d e => (d.1 == e.1) = false

/-- The tables are one finite map: they have the same entries, in whatever order, and find the same
values. -/
structure Agrees (t u : Table α β) : Prop where
  entries : t.entries.Perm u.entries
  get? : ∀ k, t.get? k = u.get? k

theorem distinct_empty : (∅ : Table α β).Distinct := List.Pairwise.nil

/-- A key that is not there is none of the keys. -/
theorem contains_eq_false_iff : t.contains k = false ↔ ∀ e ∈ t.entries, (e.1 == k) = false := by
  unfold contains
  rw [List.any_eq_false]
  simp only [Bool.not_eq_true]

theorem Distinct.insertNew (h : t.Distinct) (k : α) (v : β) : (t.insertNew k v).Distinct := by
  unfold Table.insertNew
  split
  · exact h
  · next hnew =>
    have hother := contains_eq_false_iff.mp (Bool.not_eq_true _ ▸ hnew)
    refine List.pairwise_append.mpr ⟨h, List.pairwise_singleton _ _, fun d hd e he => ?_⟩
    rw [List.mem_singleton.mp he]
    exact hother d hd

/-- Entries with keys that are not there are put behind the others, whatever is done with an entry
whose key is there. -/
theorem foldl_eq_append {put : Table α β → α × β → Table α β}
    (hput : ∀ t e, t.contains e.1 = false → put t e = ⟨t.entries ++ [e]⟩) (es done : List (α × β))
    (h : (⟨done ++ es⟩ : Table α β).Distinct) : es.foldl put ⟨done⟩ = ⟨done ++ es⟩ := by
  induction es generalizing done with
  | nil => rw [List.append_nil]; rfl
  | cons e es ih =>
    have hnew : (⟨done⟩ : Table α β).contains e.1 = false :=
      contains_eq_false_iff.mpr fun d hd =>
        (List.pairwise_append.mp h).2.2 d hd e List.mem_cons_self
    rw [List.append_cons] at h ⊢
    rw [List.foldl_cons, hput _ e hnew]
    exact ih (done ++ [e]) h

/-- A list of entries with different keys is a table as it stands. -/
theorem ofList_eq {es : List (α × β)} (h : es.Pairwise fun d e => (d.1 == e.1) = false) :
    ofList es = ⟨es⟩ := foldl_eq_append (fun _ e hnew => insert_of_new hnew e.2) es [] h

variable [EquivBEq α]

theorem Distinct.eq_of_beq (h : t.Distinct) {d e : α × β} (hd : d ∈ t.entries)
    (he : e ∈ t.entries) (hkey : (d.1 == e.1) = true) : d = e := by
  by_contra hne
  have hsymm : Std.Symm fun d e : α × β => (d.1 == e.1) = false :=
    ⟨fun d e hde => BEq.comm.trans hde⟩
  have hother := List.Pairwise.forall h hd he hne
  rw [hother] at hkey
  cases hkey

/-- What is found under a key is the value of the one entry with this key. -/
theorem Distinct.get?_eq_some_iff (h : t.Distinct) :
    t.get? k = some v ↔ ∃ e ∈ t.entries, (e.1 == k) = true ∧ e.2 = v := by
  constructor
  · intro hget
    obtain ⟨e, he, hv⟩ := Option.map_eq_some_iff.mp hget
    have hkey := List.find?_some he
    exact ⟨e, List.mem_of_find?_eq_some he, hkey, hv⟩
  · rintro ⟨e, he, hkey, rfl⟩
    cases hfind : t.entries.find? (fun e => e.1 == k) with
    | none => exact absurd hkey (List.find?_eq_none.mp hfind e he)
    | some d =>
      have hfound := List.find?_some hfind
      have hsame : (d.1 == e.1) = true := BEq.trans hfound (BEq.symm hkey)
      rw [h.eq_of_beq (List.mem_of_find?_eq_some hfind) he hsame] at hfind
      rw [get?, hfind]
      rfl

theorem Distinct.perm (h : t.Distinct) (hperm : t.entries.Perm u.entries) : u.Distinct := by
  refine hperm.pairwise h fun hde => ?_
  rw [BEq.comm]
  exact hde

theorem Distinct.agrees (h : t.Distinct) (hperm : t.entries.Perm u.entries) : t.Agrees u := by
  refine ⟨hperm, fun k => Option.ext fun v => ?_⟩
  rw [h.get?_eq_some_iff, (h.perm hperm).get?_eq_some_iff]
  simp only [hperm.mem_iff]

/-- It does not matter under which of two keys that count as the same a table is asked. -/
theorem get?_congr (t : Table α β) {k k' : α} (h : (k == k') = true) : t.get? k = t.get? k' := by
  unfold get?
  simp only [BEq.congr_right h]

/-- The entry that was put in is found under every key that counts as its own, and no other entry
changes. -/
theorem get?_insert (t : Table α β) (k k' : α) (v : β) :
    (t.insert k v).get? k' = if k == k' then some v else t.get? k' := by
  unfold insert
  split
  · next hcontains =>
    have hkey (e : α × β) : ((if e.1 == k then (k, v) else e).1 == k') = (e.1 == k') := by
      split
      · next he => exact (BEq.congr_left he).symm
      · rfl
    obtain ⟨e, he, hek⟩ := List.any_eq_true.mp hcontains
    rw [get?, List.find?_map, Option.map_map]
    simp only [Function.comp_def, hkey]
    by_cases hk : (k == k') = true
    · have hek' : (e.1 == k') = true := BEq.trans hek hk
      cases hfind : t.entries.find? fun e => e.1 == k' with
      | none => exact absurd hek' (List.find?_eq_none.mp hfind e he)
      | some d =>
        have hd := List.find?_some hfind
        have hdk : (d.1 == k) = true := BEq.trans hd (BEq.symm hk)
        rw [if_pos hk, Option.map_some, if_pos hdk]
    · rw [if_neg hk]
      refine Option.map_congr fun d hfind => ?_
      have hd := List.find?_some hfind
      have hdk : ¬ (d.1 == k) = true := fun h => hk (BEq.trans (BEq.symm h) hd)
      rw [if_neg hdk]
  · next hcontains =>
    have hnone : t.get? k = none := by
      rw [contains_eq_isSome_get?, Option.isSome_iff_ne_none, not_not] at hcontains
      exact hcontains
    rw [get?, List.find?_append, Option.map_or]
    by_cases hk : (k == k') = true
    · have hfind : (t.entries.find? fun e => e.1 == k').map Prod.snd = none :=
        (get?_congr t hk).symm.trans hnone
      rw [hfind, if_pos hk, List.find?_singleton, if_pos hk]
      rfl
    · rw [if_neg hk, List.find?_singleton, if_neg hk]
      exact Option.or_none

/-- What is found then was there, or is the new value. -/
theorem get?_insertNew (t : Table α β) (k k' : α) (v : β) :
    (t.insertNew k v).get? k' = (t.get? k').or (if k == k' then some v else none) := by
  cases hk : k == k' with
  | false =>
    rw [get?_insertNew_of_ne t v hk, if_neg Bool.false_ne_true, Option.or_none]
  | true =>
    rw [← get?_congr _ hk, ← get?_congr t hk, get?_insertNew_self, if_pos rfl]
    cases t.get? k <;> rfl

end Distinct

section KeepFirst

variable [BEq α]

/-- The table with further entries; of two entries with the same key the earlier one counts. -/
def keepFirst (t : Table α β) (es : List (α × β)) : Table α β :=
  es.foldl (fun t e => t.insertNew e.1 e.2) t

theorem keepFirst_eq {es : List (α × β)} (h : es.Pairwise fun d e => (d.1 == e.1) = false) :
    keepFirst ∅ es = ⟨es⟩ := foldl_eq_append (fun _ e hnew => insertNew_of_new hnew e.2) es [] h

theorem get?_keepFirst [EquivBEq α] (t : Table α β) (es : List (α × β)) (k : α) :
    (t.keepFirst es).get? k = (t.get? k).or ((⟨es⟩ : Table α β).get? k) := by
  induction es generalizing t with
  | nil => exact (Option.or_none).symm
  | cons e es ih =>
    have hcons : (⟨e :: es⟩ : Table α β).get? k =
        (if e.1 == k then some e.2 else none).or ((⟨es⟩ : Table α β).get? k) := by
      unfold get?
      rw [List.find?_cons]
      cases e.1 == k <;> rfl
    rw [keepFirst, List.foldl_cons, ← keepFirst, ih, get?_insertNew, hcons, Option.or_assoc]

end KeepFirst

section Union

variable [BEq α]

@[simp] theorem empty_union (t : Table α β) : (∅ : Table α β).union t = t :=
  congrArg Table.mk (List.filter_eq_self.mpr fun _ _ => rfl)

@[simp] theorem union_empty (t : Table α β) : t.union ∅ = t :=
  congrArg Table.mk (List.append_nil t.entries)

variable [EquivBEq α]

private theorem contains_congr (t : Table α β) {k k' : α} (h : (k == k') = true) :
    t.contains k = t.contains k' := by
  rw [contains_eq_isSome_get?, contains_eq_isSome_get?, get?_congr t h]

/-- A union finds what the first table has, and what only the second one has. -/
theorem get?_union (t u : Table α β) (k : α) : (t.union u).get? k = (t.get? k).or (u.get? k) := by
  cases hget : t.get? k with
  | some v => exact (within_append t.entries _).value k v hget
  | none =>
    have hnone : t.entries.find? (fun e => e.1 == k) = none := Option.map_eq_none_iff.mp hget
    have hnew := contains_of_get?_none hget
    have hkey (e : α × β) : ((!t.contains e.1) = true ∧ (e.1 == k) = true) ↔ (e.1 == k) = true := by
      refine and_iff_right_of_imp fun he => ?_
      rw [contains_congr t he, hnew]
      rfl
    rw [Option.none_or, union, get?, List.find?_append, hnone, Option.none_or, List.find?_filter]
    simp only [hkey, Bool.decide_eq_true]
    rfl

theorem contains_union (t u : Table α β) (k : α) :
    (t.union u).contains k = (t.contains k || u.contains k) := by
  rw [contains_eq_isSome_get?, contains_eq_isSome_get?, contains_eq_isSome_get?, get?_union,
    Option.isSome_or]

theorem union_assoc (t u w : Table α β) : (t.union u).union w = t.union (u.union w) := by
  have hfilter : w.entries.filter (fun e => !(t.union u).contains e.1) =
      (w.entries.filter fun e => !u.contains e.1).filter fun e => !t.contains e.1 := by
    rw [List.filter_filter]
    simp only [contains_union, Bool.not_or]
  refine congrArg Table.mk ?_
  rw [hfilter]
  simp only [union, List.filter_append, List.append_assoc]

@[simp] theorem union_self (t : Table α β) : t.union t = t := by
  have hnone : t.entries.filter (fun e => !t.contains e.1) = [] := by
    refine List.filter_eq_nil_iff.mpr fun e he => ?_
    have hin : t.contains e.1 = true := List.any_eq_true.mpr ⟨e, he, BEq.rfl⟩
    rw [hin]
    exact Bool.false_ne_true
  rw [union, hnone, List.append_nil]

end Union

section Values

variable {γ : Type}

/-- The table with other values for its keys. -/
def mapValues (f : β → γ) (t : Table α β) : Table α γ := ⟨t.entries.map fun e => (e.1, f e.2)⟩

theorem keys_mapValues (f : β → γ) (t : Table α β) : (t.mapValues f).keys = t.keys := by
  simp [mapValues, keys, Function.comp_def]

variable [BEq α]

theorem get?_mapValues (f : β → γ) (t : Table α β) (k : α) :
    (t.mapValues f).get? k = (t.get? k).map f := by
  simp [mapValues, get?, List.find?_map, Function.comp_def]

theorem mapValues_insert (f : β → γ) (t : Table α β) (k : α) (v : β) :
    (t.insert k v).mapValues f = (t.mapValues f).insert k (f v) := by
  have hcontains : (t.mapValues f).contains k = t.contains k := by
    rw [contains_eq_isSome_get?, contains_eq_isSome_get?, get?_mapValues, Option.isSome_map]
  unfold insert
  rw [hcontains]
  split
  · refine congrArg Table.mk ?_
    rw [List.map_map, mapValues, List.map_map]
    refine List.map_congr_left fun e _ => ?_
    by_cases he : (e.1 == k) = true <;> simp [he]
  · exact congrArg Table.mk List.map_append

end Values

end Concolic.Table
