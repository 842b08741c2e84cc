import Concolic.Constant
import Concolic.Proofs.Json.Number
import Concolic.Proofs.Ty.Spelling

/-!
# Literals read back

A literal is told by its ends. The three words have lower-case letters only; quoted text has a quote
at both ends, a class literal the word `class` after a dot at its end, and a number starts with a
digit or a minus and shows its width by its last character. The tests come in this order, and each
of the lemmas on a test says what keeps a text from being taken by it.

* `readInt?_toString`: whole numbers are read as they are written, and so are those of 32 and of 64
  bits, up to both ends of their ranges.
* `parse?_string`: of text, the escaped form is read. Reading does not undo escapes.
* `parse?_classLit`: a class literal is read just if its type is.
-/

namespace Concolic

/-! ## Whole numbers -/

theorem readInt?_toString (n : Int) : readInt? (toString n).toList = some n := by
  have hdigits : ∀ c ∈ Nat.toDigits 10 n.natAbs, c.isDigit = true :=
    fun c hc => isDigit_of_mem_toDigits hc
  have hne : Nat.toDigits 10 n.natAbs ≠ [] := Nat.toDigits_ne_nil
  have hall : (Nat.toDigits 10 n.natAbs).all Char.isDigit = true := List.all_eq_true.mpr hdigits
  have hsign : Fp.splitSign (toString n).toList =
      (decide (n < 0), Nat.toDigits 10 n.natAbs) := by
    rw [toList_toString_int]
    split
    · next hneg => simp [Fp.splitSign, hneg]
    · next hpos =>
      rw [List.nil_append, Fp.splitSign_of_isDigit fun c hc => hdigits c (List.mem_of_head? hc),
        decide_eq_false hpos]
  rw [readInt?, hsign]
  simp only [hall, Fp.ofDigits_toDigits, decide_eq_true_eq]
  rw [if_neg (by simp [hne])]
  congr 1
  split <;> omega

theorem readInt32?_toString (n : Int32) : readInt32? (toString n.toInt).toList = some n := by
  have hrange : Int32.minValue.toInt ≤ n.toInt ∧ n.toInt ≤ Int32.maxValue.toInt :=
    ⟨n.minValue_le_toInt, n.toInt_le⟩
  rw [readInt32?, readInt?_toString, Option.bind_eq_bind, Option.bind_some, if_pos hrange,
    Int32.ofInt_toInt]

theorem readInt64?_toString (n : Int64) : readInt64? (toString n.toInt).toList = some n := by
  have hrange : Int64.minValue.toInt ≤ n.toInt ∧ n.toInt ≤ Int64.maxValue.toInt :=
    ⟨n.minValue_le_toInt, n.toInt_le⟩
  rw [readInt64?, readInt?_toString, Option.bind_eq_bind, Option.bind_some, if_pos hrange,
    Int64.ofInt_toInt]

namespace Constant

variable {s : String} {c : Char} {cs : List Char} {t : Ty}

/-! ## The tests of a literal -/

private theorem isLower_of_isDigit (h : c.isDigit = true) : c.isLower = false := by
  have hnine : c.val ≤ '9'.val := of_decide_eq_true (Bool.and_eq_true_iff.mp h).2
  refine Bool.eq_false_iff.mpr fun hlower => ?_
  have ha : 'a'.val ≤ c.val := of_decide_eq_true (Bool.and_eq_true_iff.mp hlower).1
  exact absurd (UInt32.le_trans ha hnine) (by decide)

/-- The words have lower-case letters only. -/
theorem parse?_eq_parseChars? (hc : c ∈ s.toList) (hlower : c.isLower = false) :
    parse? s = parseChars? s.toList := by
  have hwords : ∀ word ∈ ["null", "true", "false"], word.toList.all Char.isLower = true := by
    decide
  have hne {word : String} (hword : word ∈ ["null", "true", "false"]) : s ≠ word := by
    rintro rfl
    rw [List.all_eq_true.mp (hwords s hword) c hc] at hlower
    cases hlower
  unfold parse?
  split
  case h_4 => rfl
  all_goals exact absurd rfl (hne (by decide))

private theorem unquote?_quoted (cs : List Char) : unquote? ('"' :: (cs ++ ['"'])) = some cs := by
  simp [unquote?]

private theorem unquote?_eq_none (h : cs.getLast? ≠ some '"') : unquote? cs = none := by
  unfold unquote?
  split
  · next rest =>
    split
    · next inner hinner =>
      rw [← List.reverse_reverse rest, hinner] at h
      simp [List.getLast?_cons] at h
    · rfl
  · rfl

private theorem classLiteral?_append (cs : List Char) :
    classLiteral? (cs ++ ".class".toList) = some cs := by
  have hsuffix : ".class".toList.isSuffixOf (cs ++ ".class".toList) = true := by
    rw [List.isSuffixOf_iff_suffix]
    exact List.suffix_append _ _
  have hlength : (cs ++ ".class".toList).length - 6 = cs.length := by
    rw [List.length_append]
    rfl
  rw [classLiteral?, if_pos hsuffix, hlength, List.take_left]

private theorem classLiteral?_eq_none (h : cs.getLast? ≠ some 's') : classLiteral? cs = none := by
  refine if_neg fun hsuffix => h ?_
  obtain ⟨front, rfl⟩ := List.isSuffixOf_iff_suffix.mp hsuffix
  rw [List.getLast?_append]
  rfl

/-- A text that ends in a digit or in `L` is a number if it starts like one. -/
theorem parseChars?_eq_parseNumber? (hlast : cs.getLast? = some c) (hquote : c ≠ '"')
    (hletter : c ≠ 's') (hstart : startsNumber cs = true) : parseChars? cs = parseNumber? cs := by
  have hunquoted : unquote? cs = none := by
    refine unquote?_eq_none fun h => hquote ?_
    exact Option.some.inj (hlast.symm.trans h)
  have hnoClass : classLiteral? cs = none := by
    refine classLiteral?_eq_none fun h => hletter ?_
    exact Option.some.inj (hlast.symm.trans h)
  rw [parseChars?, hunquoted, hnoClass, if_pos hstart]

private theorem startsNumber_int (n : Int) (rest : List Char) :
    startsNumber ((toString n).toList ++ rest) = true := by
  obtain ⟨d, hd, -⟩ := getLast?_toString_int n
  cases htext : (toString n).toList with
  | nil => rw [htext] at hd; cases hd
  | cons c cs =>
    have hc : c ∈ (toString n).toList := htext ▸ List.mem_cons_self
    rcases toString_int_chars hc with hdigit | rfl
    · rw [List.cons_append, startsNumber, hdigit, Bool.true_or]
    · rfl

private theorem parseNumber?_of_readInt32? {n : Int32} (hlast : cs.getLast? = some c)
    (hdigit : c.isDigit = true) (h : readInt32? cs = some n) : parseNumber? cs = some (.int n) := by
  have hend {d : Char} {front : List Char} (hreverse : cs.reverse = d :: front) : d = c := by
    rw [← List.head?_reverse, hreverse] at hlast
    exact Option.some.inj hlast
  unfold parseNumber?
  split
  · next front hreverse => exact absurd (hend hreverse ▸ hdigit) (by decide)
  · next front hreverse => exact absurd (hend hreverse ▸ hdigit) (by decide)
  · next front hreverse => exact absurd (hend hreverse ▸ hdigit) (by decide)
  · rw [h]

private theorem parseNumber?_append_L (cs : List Char) :
    parseNumber? (cs ++ ['L']) = (readInt64? cs).map .long := by
  rw [parseNumber?, List.reverse_append, List.reverse_singleton, List.singleton_append]
  simp only [List.reverse_reverse]

/-! ## Reading what was written -/

theorem parse?_int (n : Int32) : parse? (int n).text = some (int n) := by
  obtain ⟨d, hlast, hdigit⟩ := getLast?_toString_int n.toInt
  have hstart := startsNumber_int n.toInt []
  rw [List.append_nil] at hstart
  have hne {c : Char} (hc : c.isDigit = false) : d ≠ c := by
    rintro rfl
    exact absurd hdigit (Bool.eq_false_iff.mp hc)
  rw [text, parse?_eq_parseChars? (List.mem_of_getLast? hlast) (isLower_of_isDigit hdigit),
    parseChars?_eq_parseNumber? hlast (hne rfl) (hne rfl) hstart]
  exact parseNumber?_of_readInt32? hlast hdigit (readInt32?_toString n)

theorem parse?_long (n : Int64) : parse? (long n).text = some (long n) := by
  have htext : (long n).text.toList = (toString n.toInt).toList ++ ['L'] := by
    rw [text, String.toList_append]
    rfl
  have hlast : ((toString n.toInt).toList ++ ['L']).getLast? = some 'L' := List.getLast?_concat
  rw [parse?_eq_parseChars? (htext ▸ List.mem_of_getLast? hlast) (by decide), htext,
    parseChars?_eq_parseNumber? hlast (by decide) (by decide) (startsNumber_int n.toInt ['L']),
    parseNumber?_append_L, readInt64?_toString]
  rfl

theorem parse?_classLit : parse? (classLit t).text = (Ty.parse t.text).toOption.map .classLit := by
  have htext : (classLit t).text.toList = t.text.toList ++ ".class".toList := by
    rw [text, String.toList_append]
  have hdot : '.' ∈ (classLit t).text.toList := by
    rw [htext]
    exact List.mem_append_right _ (by decide)
  have hlast : (t.text.toList ++ ".class".toList).getLast? = some 's' := by
    rw [List.getLast?_append]
    rfl
  have hunquoted : unquote? (t.text.toList ++ ".class".toList) = none := by
    refine unquote?_eq_none ?_
    rw [hlast]
    decide
  rw [parse?_eq_parseChars? hdot (by decide), htext, parseChars?, hunquoted, classLiteral?_append]
  rfl

theorem parse?_string (s : String) : parse? (string s).text = some (.string (Text.escape s)) := by
  have htext : (string s).text.toList = '"' :: ((Text.escape s).toList ++ ['"']) := by
    rw [text, String.toList_append, String.toList_append]
    rfl
  have hquote : '"' ∈ (string s).text.toList := htext ▸ List.mem_cons_self
  rw [parse?_eq_parseChars? hquote (by decide), htext, parseChars?, unquote?_quoted]
  simp

/-- `null`, truth values, ints and longs are read from their texts, and a class literal is just if
its type is read from its source spelling. Of text, what is read is its escaped form, and so the
text itself just if it has nothing to escape. -/
theorem literals_reparse :
    parse? null.text = some null ∧
    (∀ b, parse? (bool b).text = some (bool b)) ∧
    (∀ n : Int32, parse? (int n).text = some (int n)) ∧
    (∀ n : Int64, parse? (long n).text = some (long n)) ∧
    (∀ t, parse? (classLit t).text = some (classLit t) ↔ t.isReadable = true) ∧
    (∀ s, parse? (string s).text = some (string (Text.escape s)) ∧
      (parse? (string s).text = some (string s) ↔ Text.escape s = s)) := by
  refine ⟨rfl, fun b => ?_, parse?_int, parse?_long, fun t => ?_, fun s => ⟨parse?_string s, ?_⟩⟩
  · cases b <;> rfl
  · rw [parse?_classLit, ← Ty.parse_text_iff]
    cases Ty.parse t.text with
    | error e => exact ⟨nofun, nofun⟩
    | ok u => simp [Except.toOption]
  · rw [parse?_string, Option.some.injEq, string.injEq]

end Constant

end Concolic
