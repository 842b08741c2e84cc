import Concolic.Proofs.Ty.Descriptor

/-!
# Both spellings of a type are read

A text for a type goes through a row of tests: blanks at the ends are dropped, brackets at the end
make an array, then come the words, the texts that only a descriptor can have, and class names. The
tests overlap, so what a text stands for depends on their order.

* `parseChars_append_brackets`: brackets behind any text make an array of what the text stands for.
  This carries the induction over nested arrays.
* `parseSimple_ok_iff`: what a text without brackets at its end stands for.
* `isReadable`: the types that are read from their source spelling (`parse_text_iff`).
* `parse_descriptor`: a descriptor is read as one, whatever the classes in it are called.
-/

namespace Concolic

/-! ## Blanks -/

namespace Text

variable {cs ds : List Char}

private theorem trimLeft_eq_self (h : ∀ c ∈ cs.head?, isBlank c = false) : trimLeft cs = cs := by
  cases cs with
  | nil => rfl
  | cons c cs => rw [trimLeft, List.dropWhile_cons_of_neg (by simpa using h c rfl)]

private theorem trimLeft_trimLeft (cs : List Char) : trimLeft (trimLeft cs) = trimLeft cs := by
  refine trimLeft_eq_self fun c hc => ?_
  obtain ⟨rest, hrest⟩ := List.head?_eq_some_iff.mp hc
  exact isBlank_head_trimLeft hrest

private theorem trimChars_trimLeft (cs : List Char) : trimChars (trimLeft cs) = trimChars cs := by
  rw [trimChars, trimChars, trimLeft_trimLeft]

private theorem trimChars_eq_self (hhead : ∀ c ∈ cs.head?, isBlank c = false)
    (hlast : ∀ c ∈ cs.getLast?, isBlank c = false) : trimChars cs = cs := by
  rw [trimChars, trimLeft_eq_self hhead, trimLeft_eq_self, List.reverse_reverse]
  rwa [List.head?_reverse]

private theorem trimChars_sublist (cs : List Char) : (trimChars cs).Sublist cs := by
  have hback : (trimChars cs).Sublist (trimLeft cs) := by
    rw [trimChars, ← List.reverse_sublist, List.reverse_reverse]
    exact List.dropWhile_sublist _
  exact hback.trans (List.dropWhile_sublist _)

/-- Nothing is dropped from text behind which other characters stand, but the blanks in front. -/
private theorem trimChars_append (hds : ds ≠ []) (hhead : ∀ c ∈ ds.head?, isBlank c = false)
    (hlast : ∀ c ∈ ds.getLast?, isBlank c = false) :
    trimChars (cs ++ ds) = trimLeft cs ++ ds := by
  have hfront : trimLeft (cs ++ ds) = trimLeft cs ++ ds := by
    rw [trimLeft, List.dropWhile_append]
    split
    · next hcs =>
      rw [List.isEmpty_iff] at hcs
      rw [trimLeft, hcs, List.nil_append]
      exact trimLeft_eq_self hhead
    · rfl
  rw [trimChars, hfront, trimLeft_eq_self, List.reverse_reverse]
  rw [List.head?_reverse, List.getLast?_append, List.getLast?_eq_some_getLast hds]
  exact fun c hc => hlast c (List.getLast?_eq_some_getLast hds ▸ hc)

end Text

namespace Ty

open Text (isBlank trimChars trimLeft)

variable {cs : List Char} {name s : String} {t u : Ty}

/-! ## Brackets at the end -/

private theorem stripBrackets?_append (cs : List Char) :
    stripBrackets? (cs ++ ['[', ']']) = some cs := by
  simp [stripBrackets?]

/-- Without an opening bracket there is no pair of them. -/
private theorem stripBrackets?_eq_none (h : cs.getLast? ≠ some ']' ∨ '[' ∉ cs) :
    stripBrackets? cs = none := by
  unfold stripBrackets?
  split
  · next front hfront =>
    have hcs : cs = front.reverse ++ ['[', ']'] := by
      rw [← List.reverse_reverse cs, hfront]
      simp
    simp [hcs] at h
  · rfl

theorem parseChars_eq (cs : List Char) : parseChars cs =
    if trimChars cs = [] then malformed .emptyTypeName
    else (stripBrackets? (trimChars cs)).elim (parseSimple (trimChars cs)) fun front =>
      (parseChars front).map array := by
  rw [parseChars]
  simp only [List.isEmpty_iff]
  split
  · rfl
  · split <;> next hstrip => rw [hstrip]; rfl

/-- Blanks in front do not matter. -/
theorem parseChars_trimLeft (cs : List Char) : parseChars (trimLeft cs) = parseChars cs := by
  rw [parseChars_eq, parseChars_eq cs, Text.trimChars_trimLeft]

theorem parseChars_append_brackets (cs : List Char) :
    parseChars (cs ++ ['[', ']']) = (parseChars cs).map array := by
  have htrim : trimChars (cs ++ ['[', ']']) = trimLeft cs ++ ['[', ']'] :=
    Text.trimChars_append (by decide) (by rintro c ⟨⟩; decide) (by rintro c ⟨⟩; decide)
  rw [parseChars_eq, htrim, if_neg (by simp), stripBrackets?_append, Option.elim_some,
    parseChars_trimLeft]

/-- A text that is read has brackets at its end, or is read as it stands. -/
theorem parseChars_cases (h : parseChars cs = .ok t) :
    (∃ e, t = array e) ∨ trimChars cs ≠ [] ∧ parseSimple (trimChars cs) = .ok t := by
  rw [parseChars_eq] at h
  split at h
  · cases h
  · next hne =>
    cases hstrip : stripBrackets? (trimChars cs) with
    | none =>
      rw [hstrip] at h
      exact .inr ⟨hne, h⟩
    | some front =>
      rw [hstrip, Option.elim_some] at h
      cases hfront : parseChars front with
      | error e => rw [hfront] at h; cases h
      | ok e =>
        rw [hfront] at h
        cases h
        exact .inl ⟨e, rfl⟩

theorem parseChars_eq_parseSimple (hne : cs ≠ []) (htrim : trimChars cs = cs)
    (hstrip : stripBrackets? cs = none) : parseChars cs = parseSimple cs := by
  rw [parseChars_eq, htrim, if_neg hne, hstrip, Option.elim_none]

/-! ## Words, descriptors and names -/

/-- The words that are read as types; `bool` is one that no type is written with. -/
def reserved : List String := "bool" :: keywords.map text

/-- A character that a class name may have where any spelling is read. -/
def isNameChar (c : Char) : Bool := !(isBlank c || c == ';' || c == '[')

theorem ofKeyword?_eq_none_iff : ofKeyword? s = none ↔ s ∉ reserved := by
  have hwords : ∀ word ∈ reserved, ofKeyword? word ≠ none := by decide
  refine ⟨fun h hmem => hwords s hmem h, fun h => ?_⟩
  unfold ofKeyword?
  split
  case h_12 => rfl
  all_goals exact absurd (by decide) h

/-- A word stands for one of the types that are spelled by a word. -/
theorem mem_keywords_of_ofKeyword? (h : ofKeyword? s = some t) : t ∈ keywords := by
  unfold ofKeyword? at h
  split at h <;> cases h <;> decide

theorem parseSimple_ok_iff : parseSimple cs = .ok t ↔
    ofKeyword? (String.ofList cs) = some t ∨
    String.ofList cs ∉ reserved ∧
      (looksLikeDescriptor cs = true ∧ Describes cs t ∨
        looksLikeDescriptor cs = false ∧ (∀ c ∈ cs, isNameChar c = true) ∧
          t = ofClassName (String.ofList cs)) := by
  unfold parseSimple
  cases hword : ofKeyword? (String.ofList cs) with
  | some u =>
    have hmem : ¬ String.ofList cs ∉ reserved := by
      rw [← ofKeyword?_eq_none_iff, hword]
      exact nofun
    simp [hword, hmem]
  | none =>
    simp only [hword, ofKeyword?_eq_none_iff.mp hword, not_false_eq_true, true_and, reduceCtorEq,
      false_or]
    cases hlooks : looksLikeDescriptor cs with
    | true => simp [ofDescriptor_iff]
    | false =>
      simp only [Bool.false_eq_true, if_false, false_and, false_or, true_and]
      by_cases hall : ∀ c ∈ cs, isNameChar c = true
      · have hany : ¬ (cs.any fun c => isBlank c || c == ';' || c == '[') = true := by
          simpa [isNameChar, and_assoc] using hall
        rw [if_neg hany, Except.ok.injEq]
        exact ⟨fun h => ⟨hall, h.symm⟩, fun h => h.2.symm⟩
      · have hany : (cs.any fun c => isBlank c || c == ';' || c == '[') = true := by
          by_contra hany
          exact hall (by simpa [isNameChar, and_assoc] using hany)
        rw [if_pos hany]
        exact ⟨nofun, fun h => absurd h.1 hall⟩

/-! ## The source spelling -/

/-- The name stands for a class where any spelling is read: it has at least two bytes, no blank, no
character that ends a descriptor, opens an array or separates packages, and it is not a word. -/
def isClassName (name : String) : Bool :=
  decide (2 ≤ name.utf8ByteSize) && name.toList.all (fun c => isNameChar c && c != '.') &&
    !reserved.contains name

/-- There is no reference in the type, and its classes have names that stand for them. -/
def isReadable : Ty → Bool
  | .object name => isClassName name
  | .array t => t.isReadable
  | .reference _ => false
  | _ => true

theorem isClassName_iff : isClassName name = true ↔
    2 ≤ name.utf8ByteSize ∧ (∀ c ∈ name.toList, isNameChar c = true) ∧ '.' ∉ name.toList ∧
      name ∉ reserved := by
  simp only [isClassName, Bool.and_eq_true, decide_eq_true_eq, List.all_eq_true, bne_iff_ne,
    Bool.not_eq_true', List.contains_eq_mem, decide_eq_false_iff_not, and_assoc]
  refine and_congr_right fun _ => ⟨fun h => ?_, fun h => ?_⟩
  · exact ⟨fun c hc => (h.1 c hc).1, fun hdot => (h.1 _ hdot).2 rfl, h.2⟩
  · exact ⟨fun c hc => ⟨h.1 c hc, fun heq => h.2.1 (heq ▸ hc)⟩, h.2.2⟩

theorem parse_array_text (t : Ty) : parse (Ty.array t).text = (parse t.text).map array := by
  rw [parse, text, String.toList_append]
  exact parseChars_append_brackets _

theorem parse_keyword : ∀ t ∈ keywords, parse t.text = .ok t := by
  have htests : ∀ t ∈ keywords, t.text.toList ≠ [] ∧ trimChars t.text.toList = t.text.toList ∧
      stripBrackets? t.text.toList = none ∧ ofKeyword? t.text = some t := by decide
  intro t ht
  obtain ⟨hne, htrim, hstrip, hword⟩ := htests t ht
  rw [parse, parseChars_eq_parseSimple hne htrim hstrip, parseSimple_ok_iff, String.ofList_toList]
  exact .inl hword

/-- No test before the last one takes a class name. -/
theorem parse_className (h : isClassName name = true) : parse name = .ok (.object name) := by
  obtain ⟨hsize, hall, hdot, hword⟩ := isClassName_iff.mp h
  have hplain : ∀ c ∈ name.toList, isBlank c = false ∧ c ≠ ';' ∧ c ≠ '[' := by
    simpa [isNameChar, and_assoc] using hall
  have hne : name.toList ≠ [] := by
    rintro hnil
    rw [String.toList_eq_nil_iff.mp hnil] at hsize
    exact absurd hsize (by decide)
  have htrim : trimChars name.toList = name.toList := Text.trimChars_eq_self
    (fun c hc => (hplain c (List.mem_of_head? hc)).1)
    (fun c hc => (hplain c (List.mem_of_getLast? hc)).1)
  have hlooks : looksLikeDescriptor name.toList = false := by
    have hopen : name.toList.head? ≠ some '[' := fun hc =>
      (hplain _ (List.mem_of_head? hc)).2.2 rfl
    have hclose : name.toList.getLast? ≠ some ';' := fun hc =>
      (hplain _ (List.mem_of_getLast? hc)).2.1 rfl
    have hbytes : name.utf8ByteSize ≠ 1 := by omega
    simp [looksLikeDescriptor, hopen, hclose, hbytes]
  have hstrip : stripBrackets? name.toList = none :=
    stripBrackets?_eq_none (.inr fun hc => (hplain _ hc).2.2 rfl)
  rw [parse, parseChars_eq_parseSimple hne htrim hstrip, parseSimple_ok_iff, String.ofList_toList]
  exact .inr ⟨hword, .inr ⟨hlooks, hall, by rw [ofClassName, slashed_eq_self hdot]⟩⟩

/-- What is read is no reference. -/
theorem parse_ne_reference : parse s ≠ .ok (.reference t) := by
  intro h
  rcases parseChars_cases h with ⟨e, he⟩ | ⟨-, hsimple⟩
  · cases he
  · rcases parseSimple_ok_iff.mp hsimple with hword | ⟨-, ⟨-, hd⟩ | ⟨-, -, hname⟩⟩
    · exact absurd (mem_keywords_of_ofKeyword? hword) (by simp [keywords])
    · cases hd.isDescribed
    · cases hname

/-- If a class name is read as the class, it went through all the tests. A descriptor is longer than
the name in it, and what is left of a name that was trimmed is shorter than the name. -/
theorem isClassName_of_parse (h : parse name = .ok (.object name)) : isClassName name = true := by
  rcases parseChars_cases h with ⟨e, he⟩ | ⟨hne, hsimple⟩
  · cases he
  have hshorter := Text.trimChars_sublist name.toList
  rcases parseSimple_ok_iff.mp hsimple with hword | ⟨hword, ⟨-, hd⟩ | ⟨hlooks, hall, hname⟩⟩
  · exact absurd (mem_keywords_of_ofKeyword? hword) (by simp [keywords])
  · have hlength := congrArg List.length hd.toList_descriptor
    rw [toList_descriptor_object, List.length_map] at hlength
    simp only [List.length_cons, List.length_append, List.length_nil] at hlength
    have := hshorter.length_le
    omega
  · have hslashed : slashed (String.ofList (trimChars name.toList)) = name :=
      (Ty.object.inj hname).symm
    have hlength : (trimChars name.toList).length = name.toList.length := by
      have := congrArg (List.length ∘ String.toList) hslashed
      simpa [toList_slashed] using this
    rw [hshorter.eq_of_length hlength] at hne hword hlooks hall hslashed
    rw [String.ofList_toList] at hword hslashed
    have hsize : name.utf8ByteSize ≠ 1 := by
      intro hone
      simp [looksLikeDescriptor, hone] at hlooks
    have hzero : name.utf8ByteSize ≠ 0 := by
      intro hzero
      rw [String.utf8ByteSize_eq_zero_iff] at hzero
      exact hne (String.toList_eq_nil_iff.mpr hzero)
    exact isClassName_iff.mpr ⟨by omega, hall, hslashed ▸ dot_notMem_slashed _, hword⟩

theorem parse_text_iff : parse t.text = .ok t ↔ t.isReadable = true := by
  induction t with
  | object name => exact ⟨isClassName_of_parse, parse_className⟩
  | array t ih =>
    rw [parse_array_text, isReadable, ← ih]
    cases parse t.text with
    | error e => exact ⟨nofun, nofun⟩
    | ok u => simp [Except.map]
  | reference t => exact ⟨fun h => absurd h parse_ne_reference, nofun⟩
  | _ => exact ⟨fun _ => rfl, fun _ => parse_keyword _ (by decide)⟩

/-! ## Descriptors -/

/-- The characters that a descriptor ends with. -/
def endings : List Char := ';' :: letters.map Prod.fst

private theorem getLast?_descriptor (t : Ty) :
    ∃ c, t.descriptor.toList.getLast? = some c ∧ c ∈ endings := by
  induction t with
  | object name =>
    rw [toList_descriptor_object, ← List.cons_append, List.getLast?_concat]
    exact ⟨';', rfl, by decide⟩
  | array t ih =>
    obtain ⟨c, hc, hending⟩ := ih
    refine ⟨c, ?_, hending⟩
    rw [toList_descriptor_array, List.getLast?_cons, hc]
    rfl
  | reference t ih => exact ih
  | null => exact ⟨';', by decide +kernel, by decide⟩
  | _ => exact ⟨_, rfl, by decide⟩

/-- A descriptor looks like one, and does not start with a blank. -/
theorem looksLikeDescriptor_descriptor (t : Ty) :
    looksLikeDescriptor t.descriptor.toList = true ∧
      ∃ c, t.descriptor.toList.head? = some c ∧ isBlank c = false := by
  induction t with
  | object name =>
    rw [toList_descriptor_object, looksLikeDescriptor, ← List.cons_append, List.getLast?_concat]
    exact ⟨by simp, 'L', rfl, by decide⟩
  | array t ih =>
    rw [toList_descriptor_array, looksLikeDescriptor]
    exact ⟨by simp, '[', rfl, by decide⟩
  | reference t ih => exact ih
  | null => exact ⟨by decide +kernel, 'L', rfl, by decide⟩
  | _ => exact ⟨by decide, _, rfl, by decide⟩

/-- No word and no array in brackets ends like a descriptor. -/
theorem parse_descriptor (t : Ty) :
    parse t.descriptor = .ok u ↔ Describes t.descriptor.toList u := by
  obtain ⟨c, hlast, hending⟩ := getLast?_descriptor t
  obtain ⟨hlooks, b, hhead, hblank⟩ := looksLikeDescriptor_descriptor t
  have hne : t.descriptor.toList ≠ [] := by
    intro hnil
    rw [hnil] at hlast
    cases hlast
  have hplain : isBlank c = false ∧ c ≠ ']' := by
    have hall : endings.all (fun c => !isBlank c && c != ']') = true := by decide
    simpa using List.all_eq_true.mp hall c hending
  have htrim : trimChars t.descriptor.toList = t.descriptor.toList := by
    refine Text.trimChars_eq_self (fun d hd => ?_) fun d hd => ?_
    · cases hhead.symm.trans hd
      exact hblank
    · cases hlast.symm.trans hd
      exact hplain.1
  have hstrip : stripBrackets? t.descriptor.toList = none := by
    refine stripBrackets?_eq_none (.inl ?_)
    rw [hlast]
    exact fun h => hplain.2 (Option.some.inj h)
  have hword : t.descriptor ∉ reserved := by
    have hwords : ∀ word ∈ reserved,
        endings.all (fun c => word.toList.getLast? != some c) = true := by decide
    intro hmem
    have hother := List.all_eq_true.mp (hwords _ hmem) c hending
    rw [hlast, bne_self_eq_false] at hother
    cases hother
  rw [parse, parseChars_eq_parseSimple hne htrim hstrip, parseSimple_ok_iff, String.ofList_toList,
    ofKeyword?_eq_none_iff.mpr hword]
  simp [hword, hlooks]

theorem parse_descriptor_iff : parse t.descriptor = .ok t ↔ t.isDescribed = true := by
  rw [parse_descriptor]
  exact ⟨Describes.isDescribed, describes_descriptor⟩

/-- A type is read from its source spelling just if there is no reference in it and its classes have
names of at least two bytes, without blanks, semicolons, opening brackets and dots, that are no
words for types. It is read from its descriptor just if there is no reference and no `null` in it
and its classes have names that are not empty and without semicolons and dots. -/
theorem spellings_parse (t : Ty) :
    (parse t.text = .ok t ↔ t.isReadable = true) ∧
    (parse t.descriptor = .ok t ↔ t.isDescribed = true) :=
  ⟨parse_text_iff, parse_descriptor_iff⟩

example : (Ty.array (.object "L]")).isReadable = true ∧ (Ty.object "bool").isReadable = false := by
  decide +kernel

end Ty

end Concolic
