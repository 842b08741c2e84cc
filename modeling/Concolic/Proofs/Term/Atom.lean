import Concolic.Proofs.Fp.Text
import Concolic.Proofs.Term
import Concolic.Proofs.Term.Built

/-!
# Atoms and their names

An atom is a term that a value can get: a receiver, an argument, a constant or a named value. Guards
are named by the names of atoms, so it matters when two different atoms have one name.

* `wordOf`: the kind of an atom can be read off its name, provided that named values end in an
  underscore and a number (`wordOf_name`).
* `Term.Homonyms x y`: two receivers, or two arguments of one position, of different types. They
  have one name, and apart from named values no other different atoms have (`homonyms_of_name`).
-/

namespace Concolic.Term

variable {x y : Term}

/-- The term is one that a value can get: a place, a name or a constant. -/
inductive Atom : Term → Prop
  | receiver (ty : Ty) : Atom (.receiver ty)
  | argument (ty : Ty) (index : Nat) : Atom (.argument ty index)
  | constant (c : Constant) : Atom (.constant c)
  | value (ty : Ty) (name : String) : Atom (.value ty name)

namespace Atom

theorem built (h : x.Atom) : x.Built := by
  cases h with
  | receiver ty => exact .receiver ty
  | argument ty index => exact .argument ty index
  | constant c => exact .constant c
  | value ty name => exact .value ty name

theorem leaf (h : x.Atom) : ∃ k ty, x = .leaf k ty := by
  cases h <;> exact ⟨_, _, rfl⟩

end Atom

/-! ## Reading names -/

/-- The word of the kind of an atom, read off the characters of its name. -/
def wordOf (cs : List Char) : String :=
  match cs.getLast? with
  | none => ""
  | some c =>
    if c.isDigit then
      if '_' ∈ cs then "value"
      else if '$' ∈ cs then "argument"
      else if '.' ∈ cs ∨ 'e' ∈ cs then "const_double"
      else "const_int"
    else
      match c with
      | '"' => "const_string"
      | '\'' => "const_char"
      | 'l' => "null"
      | 'e' => "const_bool"
      | 'b' => "const_byte"
      | 'L' => "const_long"
      | 's' => if '.' ∈ cs then "const_class" else if 't' ∈ cs then "this" else "const_short"
      | 'f' => if cs = ['i', 'n', 'f'] ∨ cs = ['-', 'i', 'n', 'f'] then "const_double"
        else "const_float"
      | 'N' => "const_double"
      | _ => ""

private theorem wordOf_digit {cs : List Char} (h : ∃ d, cs.getLast? = some d ∧ d.isDigit = true) :
    wordOf cs =
      if '_' ∈ cs then "value"
      else if '$' ∈ cs then "argument"
      else if '.' ∈ cs ∨ 'e' ∈ cs then "const_double"
      else "const_int" := by
  obtain ⟨d, hd, hdigit⟩ := h
  unfold wordOf
  rw [hd]
  dsimp only
  rw [if_pos hdigit]

private theorem not_mem_numeral {cs : List Char} {c : Char} (h : Fp.IsNumeral cs)
    (hc : Fp.isNumeric c = false) : c ∉ cs := fun hmem => by
  rw [h.chars c hmem] at hc
  cases hc

private theorem not_mem_int {n : Int} {c : Char} (hc : Fp.isNumeric c = false) :
    c ∉ (toString n).toList := fun hmem => by
  rw [Fp.isNumeric_of_mem_int hmem] at hc
  cases hc

private theorem wordOf_int (n : Int) : wordOf (toString n).toList = "const_int" := by
  have hpoint : '.' ∉ (toString n).toList := fun h => by
    rcases toString_int_chars h with h | h <;> cases h
  have hmark : 'e' ∉ (toString n).toList := fun h => by
    rcases toString_int_chars h with h | h <;> cases h
  rw [wordOf_digit (getLast?_toString_int n), if_neg (not_mem_int rfl), if_neg (not_mem_int rfl),
    if_neg (not_or.mpr ⟨hpoint, hmark⟩)]

theorem wordOf_double (d : Double) : wordOf d.text.toList = "const_double" := by
  rcases d.text_cases with h | h | h | h
  · rw [wordOf_digit h.last, if_neg (not_mem_numeral h rfl), if_neg (not_mem_numeral h rfl),
      if_pos h.marked]
  all_goals rw [h]; decide

theorem wordOf_float (s : Single) : wordOf (s.text ++ "f").toList = "const_float" := by
  rcases s.text_cases with h | h | h | h
  · have hne : ¬((s.text ++ "f").toList = ['i', 'n', 'f'] ∨
        (s.text ++ "f").toList = ['-', 'i', 'n', 'f']) := by
      have hi : 'i' ∉ (s.text ++ "f").toList := by
        simpa using not_mem_numeral h rfl
      rintro (heq | heq) <;> rw [heq] at hi <;> simp at hi
    have hlast : (s.text ++ "f").toList.getLast? = some 'f' := by simp
    unfold wordOf
    rw [hlast]
    exact if_neg hne
  all_goals rw [h]; decide

private theorem wordOf_short (n : Int) : wordOf (toString n ++ "s").toList = "const_short" := by
  have hlast : (toString n ++ "s").toList.getLast? = some 's' := by simp
  have hpoint : '.' ∉ (toString n ++ "s").toList := by
    intro h
    rw [String.toList_append] at h
    rcases List.mem_append.mp h with h | h
    · rcases toString_int_chars h with h | h <;> cases h
    · simp at h
  have hletter : 't' ∉ (toString n ++ "s").toList := by
    simpa using not_mem_int (n := n) (c := 't') rfl
  unfold wordOf
  rw [hlast]
  exact (if_neg hpoint).trans (if_neg hletter)

/-- What ends in a letter that only one kind of constant ends in. -/
theorem wordOf_append (s : String) {t : String} {c : Char} {w : String}
    (hlast : t.toList.getLast? = some c)
    (h : ∀ cs : List Char, cs.getLast? = some c → wordOf cs = w) :
    wordOf (s ++ t).toList = w := by
  refine h _ ?_
  rw [String.toList_append, List.getLast?_append, hlast]
  rfl

theorem wordOf_constant (c : Constant) :
    wordOf (constant c).name.toList = (constant c).kind.name := by
  cases c with
  | null => decide
  | bool b => cases b <;> decide
  | byte n => exact wordOf_append _ rfl fun cs h => by unfold wordOf; rw [h]; rfl
  | char unit =>
    have hlast : (Text.quoteUnit unit).toList.getLast? = some '\'' := by
      rw [Text.quoteUnit, String.toList_ofList]
      exact List.getLast?_concat
    show wordOf (Text.quoteUnit unit).toList = _
    unfold wordOf
    rw [hlast]
    rfl
  | short n => exact wordOf_short n.toInt
  | int n => exact wordOf_int n.toInt
  | long n => exact wordOf_append _ rfl fun cs h => by unfold wordOf; rw [h]; rfl
  | float s => exact wordOf_float s
  | double d => exact wordOf_double d
  | string s => exact wordOf_append _ rfl fun cs h => by unfold wordOf; rw [h]; rfl
  | classLit t =>
    have hlast : (t.text ++ ".class").toList.getLast? = some 's' := by simp
    have hpoint : '.' ∈ (t.text ++ ".class").toList := by simp
    show wordOf (t.text ++ ".class").toList = _
    unfold wordOf
    rw [hlast]
    exact if_pos hpoint

private theorem wordOf_argument (i : Nat) : wordOf (Value.argumentName i).toList = "argument" := by
  have hlist : (Value.argumentName i).toList = ['a', 'r', 'g', '$'] ++ Nat.toDigits 10 i := by
    rw [Value.argumentName, String.toList_append, Nat.toString_eq_repr, Nat.toList_repr]
    rfl
  have hdigits : '_' ∉ Nat.toDigits 10 i := Nat.underscore_not_in_toDigits
  rw [hlist, wordOf_digit (Fp.getLast?_append_digits _ (getLast?_toDigits i)),
    if_neg (by simp [hdigits]), if_pos (by simp)]

private theorem wordOf_numbered (a : String) (k : Nat) :
    wordOf (a ++ "_" ++ toString k).toList = "value" := by
  have hlist : (a ++ "_" ++ toString k).toList = (a.toList ++ ['_']) ++ Nat.toDigits 10 k := by
    rw [String.toList_append, String.toList_append, Nat.toString_eq_repr, Nat.toList_repr]
    rfl
  rw [hlist, wordOf_digit (Fp.getLast?_append_digits _ (getLast?_toDigits k)), if_pos (by simp)]

/-- The name of the term is one that results of instructions get, if it is a named value. -/
def EndsInNumber (x : Term) : Prop :=
  ∀ n, x.kind = .value n → ∃ (a : String) (k : Nat), n = a ++ "_" ++ toString k

/-- The kind of an atom can be read off its name. -/
theorem wordOf_name (hx : x.Atom) (hn : x.EndsInNumber) : wordOf x.name.toList = x.kind.name := by
  cases hx with
  | receiver ty =>
    show wordOf "this".toList = "this"
    decide
  | argument ty i => exact wordOf_argument i
  | constant c => exact wordOf_constant c
  | value ty n =>
    obtain ⟨a, k, rfl⟩ := hn n rfl
    exact wordOf_numbered a k

/-- The last character of an atom's name is none that no kind of atom ends in. -/
theorem getLast?_name (hx : x.Atom) (hn : x.EndsInNumber) :
    ∃ c, x.name.toList.getLast? = some c ∧ c ≠ 'k' := by
  have hword := wordOf_name hx hn
  have hne : x.kind.name ≠ "" := by cases x.kind <;> simp [Kind.name]
  cases hlast : x.name.toList.getLast? with
  | none =>
    unfold wordOf at hword
    rw [hlast] at hword
    exact absurd hword.symm hne
  | some c =>
    refine ⟨c, rfl, ?_⟩
    rintro rfl
    unfold wordOf at hword
    rw [hlast] at hword
    exact absurd hword.symm hne

/-! ## Atoms of one name -/

/-- Two receivers, or two arguments of one position, of different types. -/
inductive Homonyms : Term → Term → Prop
  | receiver {ty ty' : Ty} (h : ty ≠ ty') : Homonyms (.receiver ty) (.receiver ty')
  | argument {ty ty' : Ty} (index : Nat) (h : ty ≠ ty') :
      Homonyms (.argument ty index) (.argument ty' index)

theorem Homonyms.name (h : x.Homonyms y) : x.name = y.name := by
  cases h <;> rfl

theorem leaf_beq_of_word {k k' : Kind} {ty : Ty} (hword : k.name = k'.name)
    (hname : k.render ty [] = k'.render ty []) : (Term.leaf k ty == Term.leaf k' ty) = true := by
  simp [beq_def, leaf, same, sameAll, names, hword, hname]

/-- Constants of one kind have one type. -/
theorem constant_ty {c d : Constant} (h : (constant c).kind.name = (constant d).kind.name) :
    c.ty = d.ty := by
  cases c <;> cases d <;> first | rfl | simp [constant, leaf, Kind.ofConstant, Kind.name] at h

theorem constant_word (c : Constant) :
    (constant c).kind.name ∉ ["this", "argument", "value"] := by
  cases c <;> simp [constant, leaf, Kind.ofConstant, Kind.name]

/-- Different atoms of one name are homonyms, unless they are named values. -/
theorem homonyms_of_name (hx : x.Atom) (hy : y.Atom) (hnx : x.EndsInNumber) (hny : y.EndsInNumber)
    (hname : x.name = y.name) (hne : (x == y) = false) :
    x.Homonyms y ∨ ∃ n, x.kind = .value n ∧ y.kind = .value n := by
  have hword : x.kind.name = y.kind.name := by
    rw [← wordOf_name hx hnx, ← wordOf_name hy hny, hname]
  cases hx with
  | receiver ty =>
    cases hy with
    | receiver ty' =>
      refine .inl (.receiver fun heq => ?_)
      rw [heq, BEq.rfl] at hne
      cases hne
    | constant c => exact absurd (hword ▸ by simp [receiver, leaf, Kind.name]) (constant_word c)
    | argument | value => simp [receiver, argument, value, leaf, Kind.name] at hword
  | argument ty i =>
    cases hy with
    | argument ty' j =>
      obtain rfl : i = j := Value.argumentName_inj hname
      refine .inl (.argument i fun heq => ?_)
      rw [heq, BEq.rfl] at hne
      cases hne
    | constant c => exact absurd (hword ▸ by simp [argument, leaf, Kind.name]) (constant_word c)
    | receiver | value => simp [receiver, argument, value, leaf, Kind.name] at hword
  | value ty n =>
    cases hy with
    | value ty' n' =>
      obtain rfl : n = n' := hname
      exact .inr ⟨n, rfl, rfl⟩
    | constant c => exact absurd (hword ▸ by simp [value, leaf, Kind.name]) (constant_word c)
    | receiver | argument => simp [receiver, argument, value, leaf, Kind.name] at hword
  | constant c =>
    cases hy with
    | constant d =>
      have hty := constant_ty hword
      have hsame : (constant c == constant d) = true := by
        rw [constant, constant, ← hty] at hname ⊢
        exact leaf_beq_of_word hword hname
      rw [hsame] at hne
      cases hne
    | receiver | argument | value =>
      exact absurd (hword ▸ by simp [receiver, argument, value, leaf, Kind.name]) (constant_word c)

end Concolic.Term
