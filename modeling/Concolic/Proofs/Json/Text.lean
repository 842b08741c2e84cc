import Concolic.Proofs.Json.Number

/-!
# Written documents are read

* `Reads r a rest`: the reader has read `a` and left `rest`. Each part of a document is read up to
  its end, whatever follows: a text (`reads_string`), a number if what follows ends it
  (`reads_numeral`, `Stops`), and arrays and objects if their elements and fields are
  (`Reads.array`, `Reads.object`).
* `reread`: what a leaf becomes when it is written and read. Numbers become what their text says.
* `reads_write`, `scan?_write`: a document is read as it was written, but for its leaves.
-/

namespace Concolic.Json

/-- The reader reads `a` and leaves `rest`. -/
def Reads {α : Type} {cs : List Char} (r : Option (α × Rest cs)) (a : α) (rest : List Char) :
    Prop :=
  ∃ h, r = some (a, ⟨rest, h⟩)

/-! ## Text -/

/-- The sixteen digits are read as they are written. -/
theorem hexDigit?_digitChar {n : Nat} (h : n < 16) : hexDigit? n.digitChar = some n := by
  interval_cases n <;> rfl

private theorem hex4?_hexDigits {n : Nat} (h : n < 0x20) :
    ∃ a b c d, Text.hexDigits 4 n = [a, b, c, d] ∧ hex4? a b c d = some n := by
  have hzero : hexDigit? '0' = some 0 := rfl
  unfold Text.hexDigits
  rw [Nat.toDigits_eq_if (by decide)]
  split
  · next hlt =>
    refine ⟨'0', '0', '0', n.digitChar, rfl, ?_⟩
    simp [hex4?, hzero, hexDigit?_digitChar hlt]
  · next hge =>
    rw [Nat.toDigits_of_lt_base (show n / 16 < 16 by omega)]
    refine ⟨'0', '0', (n / 16).digitChar, (n % 16).digitChar, rfl, ?_⟩
    have hhigh := hexDigit?_digitChar (show n / 16 < 16 by omega)
    have hlow := hexDigit?_digitChar (Nat.mod_lt n (by decide : 0 < 16))
    simp only [hex4?, hzero, hhigh, hlow, Option.bind_eq_bind, Option.bind_some, Option.some.injEq]
    omega

private theorem isHighHalf_of_lt {n : Nat} (h : n < 0xD800) : isHighHalf n = false := by
  simp [isHighHalf]
  omega

private theorem isLowHalf_of_lt {n : Nat} (h : n < 0xDC00) : isLowHalf n = false := by
  simp [isLowHalf]
  omega

/-- A character is written as it is or as an escape of itself. -/
theorem writeChar_cases (c : Char) :
    (writeChar c = [c] ∧ c ≠ '"' ∧ c ≠ '\\' ∧ 0x20 ≤ c.toNat) ∨
      ∃ es, writeChar c = '\\' :: es ∧ ∀ rest, Reads (readEscape (es ++ rest)) (some c) rest := by
  unfold writeChar
  split
  · exact .inr ⟨['"'], rfl, fun rest => ⟨_, rfl⟩⟩
  · exact .inr ⟨['\\'], rfl, fun rest => ⟨_, rfl⟩⟩
  · exact .inr ⟨['n'], rfl, fun rest => ⟨_, rfl⟩⟩
  · exact .inr ⟨['r'], rfl, fun rest => ⟨_, rfl⟩⟩
  · exact .inr ⟨['t'], rfl, fun rest => ⟨_, rfl⟩⟩
  · exact .inr ⟨['b'], rfl, fun rest => ⟨_, rfl⟩⟩
  · exact .inr ⟨['f'], rfl, fun rest => ⟨_, rfl⟩⟩
  · next hquote hbackslash _ _ _ _ _ =>
    split
    · next hcontrol =>
      obtain ⟨a, b, c', d, hdigits, hhex⟩ := hex4?_hexDigits hcontrol
      refine .inr ⟨['u', a, b, c', d], by rw [hdigits], fun rest => ⟨by simp; omega, ?_⟩⟩
      simp [readEscape, hhex, isHighHalf_of_lt (show c.toNat < 0xD800 by omega),
        isLowHalf_of_lt (show c.toNat < 0xDC00 by omega)]
    · next hcontrol => exact .inl ⟨rfl, hquote, hbackslash, by omega⟩

theorem Reads.plain {c : Char} {seen cs rest : List Char} {s : Option String} (hquote : c ≠ '"')
    (hbackslash : c ≠ '\\') (hcontrol : 0x20 ≤ c.toNat)
    (h : Reads (readString (some (c :: seen)) cs) s rest) :
    Reads (readString (some seen) (c :: cs)) s rest := by
  obtain ⟨hlt, h⟩ := h
  refine ⟨Nat.lt_succ_of_lt hlt, ?_⟩
  rw [readString]
  · rw [if_neg (by omega)]
    show (readString (some (c :: seen)) cs).bind _ = _
    rw [h]
    rfl
  · exact hquote
  · exact hbackslash

theorem Reads.escape {c : Char} {seen cs after rest : List Char} {s : Option String}
    (hc : Reads (readEscape cs) (some c) after)
    (h : Reads (readString (some (c :: seen)) after) s rest) :
    Reads (readString (some seen) ('\\' :: cs)) s rest := by
  obtain ⟨hafter, hc⟩ := hc
  obtain ⟨hlt, h⟩ := h
  refine ⟨by simp only [List.length_cons]; omega, ?_⟩
  rw [readString, hc]
  show (readString (some (c :: seen)) after).bind _ = _
  rw [h]
  rfl

theorem reads_string (s seen rest : List Char) :
    Reads (readString (some seen) (s.flatMap writeChar ++ '"' :: rest))
      (some (String.ofList (seen.reverse ++ s))) rest := by
  induction s generalizing seen with
  | nil =>
    rw [List.flatMap_nil, List.nil_append, List.append_nil, Reads, readString]
    exact ⟨_, rfl⟩
  | cons c s ih =>
    specialize ih (c :: seen)
    rw [List.reverse_cons, List.append_assoc, List.singleton_append] at ih
    rw [List.flatMap_cons, List.append_assoc]
    rcases writeChar_cases c with ⟨h, hquote, hbackslash, hcontrol⟩ | ⟨es, h, hescape⟩
    · rw [h]
      exact .plain hquote hbackslash hcontrol ih
    · rw [h]
      exact .escape (hescape _) ih

/-! ## Leaves -/

/-- The character ends a number. -/
def Stops (rest : List Char) : Prop := ∀ c ∈ rest.head?, isNumberChar c = false

theorem readHere_eq_readScalar {c : Char} (cs : List Char) (hquote : c ≠ '"') (hbracket : c ≠ '[')
    (hbrace : c ≠ '\x7b') : readHere (c :: cs) = readScalar (c :: cs) := by
  rw [readHere]
  · exact fun _ h => hquote (List.cons.inj h).1
  · exact fun _ h => hbracket (List.cons.inj h).1
  · exact fun _ h => hbrace (List.cons.inj h).1

private theorem isNumberChar_of_isDigit {c : Char} (h : c.isDigit = true) :
    isNumberChar c = true := by
  simp [isNumberChar, h]

theorem isNumberChar_of_mem_text {n : Numeral} (h : n.Proper) :
    ∀ c ∈ n.text, isNumberChar c = true := by
  intro c hc
  rcases List.mem_append.mp hc with hc | hc
  · split at hc
    · rw [List.mem_singleton.mp hc]
      rfl
    · cases hc
  rcases List.mem_append.mp hc with hc | hc
  · exact isNumberChar_of_isDigit (h.digits c hc)
  rcases List.mem_append.mp hc with hc | hc
  · cases hfraction : n.fraction with
    | none =>
      rw [hfraction] at hc
      cases hc
    | some ds =>
      rw [hfraction] at hc
      rcases List.mem_cons.mp hc with rfl | hc
      · rfl
      · exact isNumberChar_of_isDigit ((h.fraction ds hfraction).2 c hc)
  · cases hexponent : n.exponent with
    | none =>
      rw [hexponent] at hc
      cases hc
    | some e =>
      rw [hexponent] at hc
      rcases List.mem_cons.mp hc with rfl | hc
      · rfl
      · rcases toString_int_chars hc with hc | rfl
        · exact isNumberChar_of_isDigit hc
        · rfl

/-- A numeral is read up to its end. -/
theorem reads_numeral {n : Numeral} (h : n.Proper) {rest : List Char} (hrest : Stops rest) :
    Reads (readHere (n.text ++ rest)) n.json rest := by
  have hchars := isNumberChar_of_mem_text h
  have hj := n.readNumber_text h
  generalize n.text = cs at *
  cases cs with
  | nil => cases hj
  | cons c cs =>
    have hc : isNumberChar c = true := hchars c (List.mem_cons_self ..)
    have hne (d : Char) (hd : isNumberChar d = false) : c ≠ d := by
      rintro rfl
      rw [hc] at hd
      cases hd
    obtain ⟨htake, hdrop⟩ := span_append (fun c hc => hchars c (List.mem_cons_of_mem _ hc)) hrest
    rw [List.cons_append, readHere_eq_readScalar _ (hne _ rfl) (hne _ rfl) (hne _ rfl)]
    refine ⟨by simp only [List.length_append, List.length_cons]; omega, ?_⟩
    rw [readScalar, if_pos hc]
    · simp [htake, hdrop, hj]
    · exact fun _ h _ => hne 'n' rfl h
    · exact fun _ h _ => hne 't' rfl h
    · exact fun _ h _ => hne 'f' rfl h

/-- A leaf as it is read after it was written: numbers become what their text says, and what has no
value becomes `null`. -/
def reread : Json → Json
  | .int n => (readNumber (toString n).toList).getD .null
  | .single x => (readNumber (writeFp x).toList).getD .null
  | .double x => (readNumber (writeFp x).toList).getD .null
  | .valueless => .null
  | j => j

theorem reads_null (rest : List Char) : Reads (readHere ("null".toList ++ rest)) .null rest := by
  show Reads (readHere ('n' :: 'u' :: 'l' :: 'l' :: rest)) _ _
  rw [readHere_eq_readScalar _ (by decide) (by decide) (by decide)]
  exact ⟨_, rfl⟩

theorem reads_bool (b : Bool) (rest : List Char) :
    Reads (readHere ((if b then "true" else "false").toList ++ rest)) (.bool b) rest := by
  cases b with
  | true =>
    show Reads (readHere ('t' :: 'r' :: 'u' :: 'e' :: rest)) _ _
    rw [readHere_eq_readScalar _ (by decide) (by decide) (by decide)]
    exact ⟨_, rfl⟩
  | false =>
    show Reads (readHere ('f' :: 'a' :: 'l' :: 's' :: 'e' :: rest)) _ _
    rw [readHere_eq_readScalar _ (by decide) (by decide) (by decide)]
    exact ⟨_, rfl⟩

/-- What stands between the quotes of a written text, and the second quote. -/
theorem reads_quoted (s : String) (rest : List Char) :
    ∃ cs, (writeString s).toList ++ rest = '"' :: cs ∧
      Reads (readString (some []) cs) (some s) rest := by
  refine ⟨s.toList.flatMap writeChar ++ '"' :: rest, by simp [writeString], ?_⟩
  have h := reads_string s.toList [] rest
  rwa [List.reverse_nil, List.nil_append, String.ofList_toList] at h

theorem reads_writeString (s : String) (rest : List Char) :
    Reads (readHere ((writeString s).toList ++ rest)) (.str s) rest := by
  obtain ⟨cs, hcs, hlt, h⟩ := reads_quoted s rest
  rw [hcs]
  refine ⟨Nat.lt_succ_of_lt hlt, ?_⟩
  rw [readHere, h]
  rfl

theorem reads_writeFp {f : Fp.Format} (hf : f.Common) (x : Fp f) {rest : List Char}
    (hrest : Stops rest) :
    Reads (readHere ((writeFp x).toList ++ rest)) ((readNumber (writeFp x).toList).getD .null)
      rest := by
  by_cases h : x.isFinite = true
  · obtain ⟨n, hproper, htext, -⟩ := exists_numeral_writeFp hf h
    rw [← htext, n.readNumber_text hproper]
    exact reads_numeral hproper hrest
  · rw [writeFp, if_neg h]
    exact reads_null rest

/-! ## Documents -/

/-- A document does not start with a blank and not with the end of an array. -/
theorem Reads.head {cs rest : List Char} {j : Json} (h : Reads (readHere cs) j rest) :
    ∃ c cs', cs = c :: cs' ∧ isSpace c = false ∧ c ≠ ']' := by
  obtain ⟨hlt, h⟩ := h
  cases cs with
  | nil => cases hlt
  | cons c cs =>
    have hnone (hc : c = ' ' ∨ c = '\n' ∨ c = '\r' ∨ c = '\t' ∨ c = ']') :
        readHere (c :: cs) = none := by
      rcases hc with rfl | rfl | rfl | rfl | rfl <;>
        exact readHere_eq_readScalar cs (by decide) (by decide) (by decide)
    have hne : ¬(c = ' ' ∨ c = '\n' ∨ c = '\r' ∨ c = '\t' ∨ c = ']') := by
      intro hc
      rw [hnone hc] at h
      cases h
    refine ⟨c, cs, rfl, ?_, fun hc => hne (by simp [hc])⟩
    simp only [isSpace, Bool.or_eq_false_iff, beq_eq_false_iff_ne]
    grind

theorem Reads.skip_eq {cs rest : List Char} {j : Json} (h : Reads (readHere cs) j rest) :
    skip cs = cs := by
  obtain ⟨c, cs', rfl, hc, -⟩ := h.head
  rw [skip, List.dropWhile_cons_of_neg (by simpa using hc)]

theorem Reads.value {cs rest : List Char} {j : Json} (h : Reads (readHere cs) j rest) :
    Reads (readValue cs) j rest := by
  rw [← h.skip_eq] at h
  obtain ⟨hlt, h⟩ := h
  refine ⟨hlt.trans_le (length_skip_le cs), ?_⟩
  rw [readValue, h]
  rfl

/-- An array ends after an element. -/
theorem Reads.last {cs rest : List Char} {j : Json} (h : Reads (readHere cs) j (']' :: rest))
    (first : Bool) : Reads (readElements cs first) [j] rest := by
  obtain ⟨c, cs', rfl, -, hc⟩ := h.head
  have hskip := h.skip_eq
  obtain ⟨hlt, h⟩ := h.value
  rw [Reads, readElements.eq_def]
  split
  · next heq =>
    rw [hskip] at heq
    exact absurd (List.cons.inj heq).1 hc
  · rw [h]
    exact ⟨Nat.lt_of_succ_lt hlt, rfl⟩

/-- An array goes on after an element. -/
theorem Reads.element {cs next rest : List Char} {j : Json} {js : List Json}
    (h : Reads (readHere cs) j (',' :: next)) (hjs : Reads (readElements next false) js rest)
    (first : Bool) : Reads (readElements cs first) (j :: js) rest := by
  obtain ⟨c, cs', rfl, -, hc⟩ := h.head
  have hskip := h.skip_eq
  obtain ⟨hlt, h⟩ := h.value
  obtain ⟨hlt', hjs⟩ := hjs
  rw [Reads, readElements.eq_def]
  split
  · next heq =>
    rw [hskip] at heq
    exact absurd (List.cons.inj heq).1 hc
  · rw [h]
    refine ⟨hlt'.trans (Nat.lt_of_succ_lt hlt), ?_⟩
    show (readElements next false).bind _ = _
    rw [hjs]
    rfl

/-- An object ends after a field. -/
theorem Reads.lastField {cs rest : List Char} {j : Json}
    (h : Reads (readHere cs) j ('\x7d' :: rest)) (name : String) (first : Bool) :
    Reads (readFields ((writeString name).toList ++ ':' :: cs) first) [(some name, j)] rest := by
  obtain ⟨inner, hinner, hname, hread⟩ := reads_quoted name (':' :: cs)
  obtain ⟨hlt, h⟩ := h.value
  have hshorter : rest.length < inner.length :=
    (Nat.lt_of_succ_lt hlt).trans (Nat.lt_of_succ_lt hname)
  rw [hinner, Reads, readFields.eq_def]
  dsimp only
  split
  · next heq => cases heq
  · next heq =>
    cases heq
    rw [hread]
    refine ⟨Nat.lt_succ_of_lt hshorter, ?_⟩
    show (readValue cs).bind _ = _
    rw [h]
    rfl
  · next hne _ => exact absurd rfl (hne _)

/-- An object goes on after a field. -/
theorem Reads.field {cs next rest : List Char} {j : Json} {fields : List (Option String × Json)}
    (h : Reads (readHere cs) j (',' :: next)) (hfields : Reads (readFields next false) fields rest)
    (name : String) (first : Bool) :
    Reads (readFields ((writeString name).toList ++ ':' :: cs) first) ((some name, j) :: fields)
      rest := by
  obtain ⟨inner, hinner, hname, hread⟩ := reads_quoted name (':' :: cs)
  obtain ⟨hlt, h⟩ := h.value
  obtain ⟨hlt', hfields⟩ := hfields
  have hshorter : rest.length < inner.length :=
    hlt'.trans ((Nat.lt_of_succ_lt hlt).trans (Nat.lt_of_succ_lt hname))
  rw [hinner, Reads, readFields.eq_def]
  dsimp only
  split
  · next heq => cases heq
  · next heq =>
    cases heq
    rw [hread]
    refine ⟨Nat.lt_succ_of_lt hshorter, ?_⟩
    show (readValue cs).bind _ = _
    rw [h]
    show (readFields next false).bind _ = _
    rw [hfields]
    rfl
  · next hne _ => exact absurd rfl (hne _)

private theorem stops_cons {c : Char} (cs : List Char) (h : isNumberChar c = false) :
    Stops (c :: cs) := by
  rintro d ⟨⟩
  exact h

/-- A decimal keeps its digits and its exponent. -/
theorem reads_writeDecimal (negative : Bool) (x : Fp.Decimal) {rest : List Char}
    (hrest : Stops rest) :
    Reads (readHere ((writeDecimal negative x).toList ++ rest)) (.decimal negative x) rest := by
  have hproper : Numeral.Proper ⟨negative, Nat.toDigits 10 x.digits, none, some x.exponent⟩ :=
    ⟨isWhole_toDigits _, fun _ hc => isDigit_of_mem_toDigits hc, fun _ hds => by cases hds⟩
  have htext : (writeDecimal negative x).toList =
      Numeral.text ⟨negative, Nat.toDigits 10 x.digits, none, some x.exponent⟩ := by
    cases negative <;>
      simp [writeDecimal, Numeral.text, Numeral.body, fractionText, exponentText]
  have hjson : Numeral.json ⟨negative, Nat.toDigits 10 x.digits, none, some x.exponent⟩ =
      .decimal negative x := by
    simp [Numeral.json, Numeral.decimal, trimZeros]
  rw [htext, ← hjson]
  exact reads_numeral hproper hrest

theorem reads_int (n : Int) {rest : List Char} (hrest : Stops rest) :
    Reads (readHere ((toString n).toList ++ rest)) ((readNumber (toString n).toList).getD .null)
      rest := by
  rw [← Numeral.text_ofInt, Numeral.readNumber_text (Numeral.proper_ofInt n)]
  exact reads_numeral (Numeral.proper_ofInt n) hrest

/-- An array is read if its elements are. -/
theorem Reads.array {cs rest : List Char} {js : List Json}
    (h : Reads (readElements cs true) js rest) :
    Reads (readHere ('[' :: cs)) (.arr js) rest := by
  obtain ⟨hlt, h⟩ := h
  refine ⟨Nat.lt_succ_of_lt hlt, ?_⟩
  rw [readHere, h]
  rfl

/-- A field whose name is a text. -/
def withName (field : String × Json) : Option String × Json := (some field.1, field.2)

theorem ofNamed_withName (fields : List (String × Json)) :
    ofNamed (fields.map withName) = .obj fields := by
  have hnames : (fields.map withName).mapM namedField = some fields := by
    induction fields with
    | nil => rfl
    | cons field fields ih =>
      rw [List.map_cons, List.mapM_cons, ih]
      rfl
  rw [ofNamed, hnames]

/-- An object is read if its fields are. -/
theorem Reads.object {cs rest : List Char} {fields : List (String × Json)}
    (h : Reads (readFields cs true) (fields.map withName) rest) :
    Reads (readHere ('\x7b' :: cs)) (.obj fields) rest := by
  obtain ⟨hlt, h⟩ := h
  refine ⟨Nat.lt_succ_of_lt hlt, ?_⟩
  rw [readHere, h, ← ofNamed_withName]
  rfl

theorem reads_noElement (rest : List Char) : Reads (readElements (']' :: rest) true) [] rest := by
  rw [Reads, readElements.eq_def]
  split
  · next heq =>
    cases heq
    exact ⟨Nat.lt_succ_self _, rfl⟩
  · next hne => exact absurd rfl (hne rest rfl)

theorem reads_noField (rest : List Char) : Reads (readFields ('\x7d' :: rest) true) [] rest := by
  rw [Reads, readFields.eq_def]
  dsimp only
  split
  · next heq =>
    cases heq
    exact ⟨Nat.lt_succ_self _, rfl⟩
  · next heq => cases heq
  · next hne => exact absurd rfl (hne rest rfl)

mutual

/-- A written document is read up to its end, with its leaves as `reread` says. -/
theorem reads_write : (j : Json) → ∀ {rest : List Char}, Stops rest →
    Reads (readHere (j.write.toList ++ rest)) (j.mapLeaves reread) rest
  | .null, rest, _ => reads_null rest
  | .bool b, rest, _ => reads_bool b rest
  | .int n, _, hrest => reads_int n hrest
  | .decimal negative x, _, hrest => reads_writeDecimal negative x hrest
  | .single x, _, hrest => reads_writeFp Fp.Format.single_common x hrest
  | .double x, _, hrest => reads_writeFp Fp.Format.double_common x hrest
  | .str s, rest, _ => reads_writeString s rest
  | .valueless, rest, _ => reads_null rest
  | .arr elements, rest, _ => by
    have htext : (Json.arr elements).write.toList ++ rest =
        '[' :: ((String.intercalate "," (writeAll elements)).toList ++ ']' :: rest) := by
      simp [write]
    rw [htext]
    refine .array ?_
    cases elements with
    | nil => exact reads_noElement rest
    | cons j js => exact reads_writeAll (j :: js) (List.cons_ne_nil _ _) true rest
  | .obj fields, rest, _ => by
    have htext : (Json.obj fields).write.toList ++ rest =
        '\x7b' :: ((String.intercalate "," (writeFields fields)).toList ++ '\x7d' :: rest) := by
      simp [write]
    rw [htext]
    refine .object ?_
    cases fields with
    | nil => exact reads_noField rest
    | cons field fields =>
      exact reads_writeFields (field :: fields) (List.cons_ne_nil _ _) true rest

/-- The elements of an array with its end. -/
theorem reads_writeAll : (js : List Json) → js ≠ [] → ∀ (first : Bool) (rest : List Char),
    Reads (readElements ((String.intercalate "," (writeAll js)).toList ++ ']' :: rest) first)
      (mapLeavesAll reread js) rest
  | [], h, _, _ => absurd rfl h
  | [j], _, first, rest => (reads_write j (stops_cons rest rfl)).last first
  | j :: k :: ks, _, first, rest => by
    have htext : (String.intercalate "," (writeAll (j :: k :: ks))).toList ++ ']' :: rest =
        j.write.toList ++
          ',' :: ((String.intercalate "," (writeAll (k :: ks))).toList ++ ']' :: rest) := by
      simp [writeAll, String.intercalate_cons_cons]
    rw [htext]
    exact (reads_write j (stops_cons _ rfl)).element
      (reads_writeAll (k :: ks) (List.cons_ne_nil _ _) false rest) first

/-- The fields of an object with its end. -/
theorem reads_writeFields : (fields : List (String × Json)) → fields ≠ [] →
    ∀ (first : Bool) (rest : List Char),
    Reads
      (readFields ((String.intercalate "," (writeFields fields)).toList ++ '\x7d' :: rest) first)
      ((mapLeavesFields reread fields).map withName) rest
  | [], h, _, _ => absurd rfl h
  | [(name, j)], _, first, rest => by
    have htext : (String.intercalate "," (writeFields [(name, j)])).toList ++ '\x7d' :: rest =
        (writeString name).toList ++ ':' :: (j.write.toList ++ '\x7d' :: rest) := by
      simp [writeFields]
    rw [htext]
    exact (reads_write j (stops_cons rest rfl)).lastField name first
  | (name, j) :: field :: fields, _, first, rest => by
    have htext :
        (String.intercalate "," (writeFields ((name, j) :: field :: fields))).toList ++
            '\x7d' :: rest =
          (writeString name).toList ++ ':' :: (j.write.toList ++
            ',' :: ((String.intercalate "," (writeFields (field :: fields))).toList ++
              '\x7d' :: rest)) := by
      simp [writeFields, String.intercalate_cons_cons]
    rw [htext]
    exact (reads_write j (stops_cons _ rfl)).field
      (reads_writeFields (field :: fields) (List.cons_ne_nil _ _) false rest) name first

end

/-- Every written document is read, with its leaves as `reread` says. -/
theorem scan?_write (j : Json) : scan? j.write = some (j.mapLeaves reread) := by
  have hstops : Stops [] := by
    rintro c ⟨⟩
  have h := reads_write j hstops
  rw [List.append_nil] at h
  obtain ⟨hlt, h⟩ := h.value
  rw [scan?, h]
  rfl

end Concolic.Json
