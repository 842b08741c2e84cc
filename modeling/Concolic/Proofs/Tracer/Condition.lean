import Concolic.Proofs.Tracer.Atoms

/-!
# What guards decide

A guard stands for a condition on terms: that one is null, that one is an index of another, that one
is a length within bounds. It is a truth value whose name is put together from the names of the
terms, so two conditions may get one guard.

* `Condition.name`, `Condition.definition`: how the guard is called and what it is equated with.
* `Condition.same`: the condition is the same one, about the same terms.
* `Condition.Clashes c d`: the conditions get one guard, although they need not be the same.
* `Clear.clashes_iff`: different conditions on terms that a tracer keeps get one guard exactly if
  they clash. For one term this takes homonyms. For an index it takes homonyms, or instructions
  with the word of index guards in their names.
-/

namespace Concolic

/-- The terms are the same, or they only look the same. -/
def Term.Alike (x y : Term) : Prop := (x == y) = true ∨ x.Homonyms y

theorem Term.Alike.name {x y : Term} (h : x.Alike y) : x.name = y.name :=
  h.elim name_of_beq Homonyms.name

/-- What a guard decides. -/
inductive Condition where
  /-- The value is null. -/
  | null (x : Term)
  /-- The index is below the length of the array. -/
  | inBounds (array index : Term)
  /-- The length is not negative. -/
  | notNegative (x : Term)
  /-- The length is below the bound. -/
  | below (x : Term) (bound : Int32)

namespace Condition

/-- What the guard of the condition is called. -/
def name : Condition → String
  | null x => x.name ++ "NullCheck"
  | inBounds a k => a.name ++ "IndexCheck" ++ k.name
  | notNegative x => x.name ++ "PositiveLengthCheck"
  | below x _ => x.name ++ "UpperBoundLengthCheck"

/-- The term that says what the condition is. -/
def definition : Condition → Result Term
  | null x => Term.compare .eq x Term.null
  | inBounds a k => do Term.compare .lt k (← Term.arrayLength a)
  | notNegative x => Term.compare .ge x (Term.int 0)
  | below x bound => Term.compare .lt x (Term.int bound)

/-- The terms that the condition is about. -/
def terms : Condition → List Term
  | null x | notNegative x | below x _ => [x]
  | inBounds a k => [a, k]

/-- The conditions are of one kind and about the same terms. -/
def same : Condition → Condition → Bool
  | null x, null y | notNegative x, notNegative y | below x _, below y _ => x == y
  | inBounds a k, inBounds a' k' => (a, k) == (a', k')
  | _, _ => false

/-- The conditions are of one kind, and their terms cannot be told apart by what the guards are
called. -/
inductive Clashes : Condition → Condition → Prop
  | null {x y : Term} (h : x.Homonyms y) : Clashes (.null x) (.null y)
  | notNegative {x y : Term} (h : x.Homonyms y) : Clashes (.notNegative x) (.notNegative y)
  | below {x y : Term} (bound bound' : Int32) (h : x.Homonyms y) :
      Clashes (.below x bound) (.below y bound')
  | inBounds {a k a' k' : Term} (ha : a.Alike a') (hk : k.Alike k') :
      Clashes (.inBounds a k) (.inBounds a' k')
  /-- The name of the first array runs into the name of the second index. -/
  | longer {a k a' k' : Term} (part : String) (ha : a.name = a'.name ++ "IndexCheck" ++ part)
      (hk : k'.name = part ++ "IndexCheck" ++ k.name) : Clashes (.inBounds a k) (.inBounds a' k')
  | shorter {a k a' k' : Term} (part : String) (ha : a'.name = a.name ++ "IndexCheck" ++ part)
      (hk : k.name = part ++ "IndexCheck" ++ k'.name) : Clashes (.inBounds a k) (.inBounds a' k')

theorem Clashes.name {c d : Condition} (h : c.Clashes d) : c.name = d.name := by
  cases h with
  | null h | notNegative h | below _ _ h => exact congrArg (· ++ _) h.name
  | inBounds ha hk => rw [Condition.name, Condition.name, ha.name, hk.name]
  | longer part ha hk => simp only [Condition.name, ha, hk, String.append_assoc]
  | shorter part ha hk => simp only [Condition.name, ha, hk, String.append_assoc]

/-! ## Words in names -/

/-- Where a word stands at the start of a text and again later, the second one begins after the end
of the first, if the first character of the word stands only there. -/
private theorem append_word_of_overlap {c : Char} {w r cs ds : List Char} (hc : c ∉ w) (hr : r ≠ [])
    (h : (c :: w) ++ cs = r ++ ((c :: w) ++ ds)) :
    ∃ m, r = (c :: w) ++ m ∧ cs = m ++ ((c :: w) ++ ds) := by
  rcases List.append_eq_append_iff.mp h with ⟨m, hm, hcs⟩ | ⟨s, hs, hds⟩
  · exact ⟨m, hm, hcs⟩
  · cases s with
    | nil => exact ⟨[], by rw [List.append_nil] at hs ⊢; exact hs.symm, hds.symm⟩
    | cons d s =>
      -- The second word would begin inside the first one.
      obtain ⟨b, r, rfl⟩ := List.exists_cons_of_ne_nil hr
      obtain ⟨rfl, rfl⟩ : c = b ∧ w = r ++ d :: s := List.cons.inj hs
      obtain rfl : c = d := (List.cons.inj hds).1
      exact absurd (List.mem_append_right r List.mem_cons_self) hc

/-- A text with a word in it can be read in two ways only if the word stands in it twice. -/
private theorem append_word_eq {c : Char} {w as bs as' bs' : List Char} (hc : c ∉ w)
    (h : as ++ ((c :: w) ++ bs) = as' ++ ((c :: w) ++ bs')) :
    as = as' ∧ bs = bs' ∨
      (∃ m, as = as' ++ ((c :: w) ++ m) ∧ bs' = m ++ ((c :: w) ++ bs)) ∨
      ∃ m, as' = as ++ ((c :: w) ++ m) ∧ bs = m ++ ((c :: w) ++ bs') := by
  rcases List.append_eq_append_iff.mp h with ⟨r, hr, h⟩ | ⟨r, hr, h⟩
  · by_cases hnil : r = []
    · subst hnil
      exact .inl ⟨(List.append_nil as ▸ hr).symm, List.append_cancel_left h⟩
    · obtain ⟨m, rfl, hcs⟩ := append_word_of_overlap hc hnil h
      exact .inr (.inr ⟨m, hr, hcs⟩)
  · by_cases hnil : r = []
    · subst hnil
      exact .inl ⟨List.append_nil as' ▸ hr, (List.append_cancel_left h).symm⟩
    · obtain ⟨m, rfl, hcs⟩ := append_word_of_overlap hc hnil h
      exact .inr (.inl ⟨m, hr, hcs⟩)

/-- The same for texts and the word of index guards. -/
private theorem indexName_eq {a k a' k' : String}
    (h : a ++ "IndexCheck" ++ k = a' ++ "IndexCheck" ++ k') :
    a = a' ∧ k = k' ∨
      (∃ part, a = a' ++ "IndexCheck" ++ part ∧ k' = part ++ "IndexCheck" ++ k) ∨
      ∃ part, a' = a ++ "IndexCheck" ++ part ∧ k = part ++ "IndexCheck" ++ k' := by
  have hlist : a.toList ++ ("IndexCheck".toList ++ k.toList) =
      a'.toList ++ ("IndexCheck".toList ++ k'.toList) := by
    simpa [String.toList_append] using congrArg String.toList h
  have htext {s : String} {as bs : List Char} (h : s.toList = as ++ ("IndexCheck".toList ++ bs)) :
      s = String.ofList as ++ "IndexCheck" ++ String.ofList bs := by
    refine String.toList_inj.mp ?_
    simpa [String.toList_append] using h
  rcases append_word_eq (c := 'I') (by decide) hlist with ⟨ha, hk⟩ | ⟨m, ha, hk⟩ | ⟨m, ha, hk⟩
  · exact .inl ⟨String.toList_inj.mp ha, String.toList_inj.mp hk⟩
  · have ha := htext ha
    have hk := htext hk
    rw [String.ofList_toList] at ha hk
    exact .inr (.inl ⟨String.ofList m, ha, hk⟩)
  · have ha := htext ha
    have hk := htext hk
    rw [String.ofList_toList] at ha hk
    exact .inr (.inr ⟨String.ofList m, ha, hk⟩)

private theorem append_right_cancel {a b s : String} (h : a ++ s = b ++ s) : a = b := by
  have hlist := congrArg String.toList h
  rw [String.toList_append, String.toList_append] at hlist
  exact String.toList_inj.mp (List.append_cancel_right hlist)

/-! ## Kinds of conditions -/

/-- What is checked. -/
def word : Condition → String
  | null _ => "null"
  | inBounds _ _ => "index"
  | notNegative _ => "least length"
  | below _ _ => "greatest length"

/-- What is checked, read off the characters of the name of a guard from the last one on. -/
def wordOf : List Char → String
  | 'k' :: 'c' :: 'e' :: 'h' :: 'C' :: 'l' :: _ => "null"
  | 'k' :: 'c' :: 'e' :: 'h' :: 'C' :: 'h' :: 't' :: 'g' :: 'n' :: 'e' :: 'L' :: 'e' :: _ =>
    "least length"
  | 'k' :: 'c' :: 'e' :: 'h' :: 'C' :: 'h' :: 't' :: 'g' :: 'n' :: 'e' :: 'L' :: 'd' :: _ =>
    "greatest length"
  | _ => "index"

private theorem wordOf_index {c : Char} (cs : List Char) (h : c ≠ 'k') :
    wordOf (c :: cs) = "index" := by
  unfold wordOf
  split
  · next heq => exact absurd (List.cons.inj heq).1 h
  · next heq => exact absurd (List.cons.inj heq).1 h
  · next heq => exact absurd (List.cons.inj heq).1 h
  · rfl

theorem wordOf_append (s t : String) :
    wordOf (s ++ t).toList.reverse = wordOf (t.toList.reverse ++ s.toList.reverse) := by
  rw [String.toList_append, List.reverse_append]

end Condition

namespace Tracer

open Condition

variable {t : Tracer} {c d : Condition}

/-- The name of a guard tells what is checked. -/
theorem Clear.wordOf_name (h : t.Clear) (hc : ∀ x ∈ c.terms, t.Keeps x) :
    wordOf c.name.toList.reverse = c.word := by
  cases c with
  | null x | notNegative x | below x _ =>
    rw [Condition.name, wordOf_append]
    rfl
  | inBounds a k =>
    have hk : t.Keeps k := hc k (List.mem_cons_of_mem a List.mem_cons_self)
    obtain ⟨c, hlast, hne⟩ := Term.getLast?_name (h.atoms k hk) (h.endsInNumber hk)
    obtain ⟨cs, hcs⟩ := List.getLast?_eq_some_iff.mp hlast
    rw [Condition.name, wordOf_append, hcs, List.reverse_append]
    exact wordOf_index _ hne

/-- Terms of one name that a tracer keeps are alike. -/
theorem Clear.alike (h : t.Clear) {x y : Term} (hx : t.Keeps x) (hy : t.Keeps y)
    (hname : x.name = y.name) : x.Alike y := by
  cases hsame : x == y with
  | true => exact .inl hsame
  | false => exact .inr (h.homonyms hx hy hname hsame)

/-- Different conditions get one guard exactly if they clash. -/
theorem Clear.clashes_iff (h : t.Clear) (hc : ∀ x ∈ c.terms, t.Keeps x)
    (hd : ∀ x ∈ d.terms, t.Keeps x) (hne : c.same d = false) :
    c.name = d.name ↔ c.Clashes d := by
  refine ⟨fun hname => ?_, Clashes.name⟩
  have hword : c.word = d.word := by rw [← h.wordOf_name hc, ← h.wordOf_name hd, hname]
  have hone {x y : Term} {s : String} (hx : x ∈ c.terms) (hy : y ∈ d.terms)
      (hxy : (x == y) = false) (hname : x.name ++ s = y.name ++ s) : x.Homonyms y :=
    h.homonyms (hc x hx) (hd y hy) (append_right_cancel hname) hxy
  cases c with
  | null x =>
    cases d with
    | null y => exact .null (hone List.mem_cons_self List.mem_cons_self hne hname)
    | _ => simp [word] at hword
  | notNegative x =>
    cases d with
    | notNegative y => exact .notNegative (hone List.mem_cons_self List.mem_cons_self hne hname)
    | _ => simp [word] at hword
  | below x bound =>
    cases d with
    | below y bound' => exact .below _ _ (hone List.mem_cons_self List.mem_cons_self hne hname)
    | _ => simp [word] at hword
  | inBounds a k =>
    cases d with
    | inBounds a' k' =>
      rcases indexName_eq hname with ⟨ha, hk⟩ | ⟨part, ha, hk⟩ | ⟨part, ha, hk⟩
      · refine .inBounds (h.alike (hc a ?_) (hd a' ?_) ha) (h.alike (hc k ?_) (hd k' ?_) hk)
        all_goals simp [terms]
      · exact .longer part ha hk
      · exact .shorter part ha hk
    | _ => simp [word] at hword

end Tracer

end Concolic
