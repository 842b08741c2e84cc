import Mathlib.Data.Nat.Bitwise
import Concolic.Codec.Value
import Concolic.Proofs.Json.Part

/-!
# Modifiers as text

Modifiers are written as names between bars, with what has no name in hexadecimal behind them.

* `IsPart`: neither a bar nor a blank stands in a part, so that splitting at bars and dropping
  blanks gives the parts back (`splitBars_intercalate`).
* `flagParts flags`: the parts of the text with the bits that they stand for. Together these are all
  bits (`foldl_flagParts`): a name stands for one bit (`and_bit`), and the rest is the last part.
* `parseFlags?_flagsText`: modifiers are read as they are written.
-/

namespace Concolic.Method

/-! ## Parts between bars -/

private theorem splitBars_append {part : List Char} (h : '|' ∉ part) (rest : List Char) :
    splitBars (part ++ '|' :: rest) = part :: splitBars rest := by
  induction part with
  | nil => rfl
  | cons c part ih =>
    rw [List.mem_cons, not_or] at h
    rw [List.cons_append, splitBars, if_neg (by simpa using Ne.symm h.1), ih h.2]

theorem splitBars_eq {part : List Char} (h : '|' ∉ part) : splitBars part = [part] := by
  induction part with
  | nil => rfl
  | cons c part ih =>
    rw [List.mem_cons, not_or] at h
    rw [splitBars, if_neg (by simpa using Ne.symm h.1), ih h.2]

/-- Neither bars nor blanks, and not nothing. -/
structure IsPart (part : List Char) : Prop where
  ne_nil : part ≠ []
  bar : '|' ∉ part
  blank : ∀ c ∈ part, Text.isBlank c = false

theorem IsPart.reverse {part : List Char} (h : IsPart part) : IsPart part.reverse :=
  ⟨List.reverse_ne_nil_iff.mpr h.ne_nil, fun hbar => h.bar (List.mem_reverse.mp hbar),
    fun c hc => h.blank c (List.mem_reverse.mp hc)⟩

/-- Blanks in front of a part are dropped. -/
private theorem trimLeft_pad {part : List Char} (h : IsPart part) (n : Nat) (cs : List Char) :
    Text.trimLeft (List.replicate n ' ' ++ (part ++ cs)) = part ++ cs := by
  refine (span_append (p := Text.isBlank) (fun c hc => ?_) fun c hc => ?_).2
  · rw [List.eq_of_mem_replicate hc]
    rfl
  · obtain ⟨d, ds, rfl⟩ := List.exists_cons_of_ne_nil h.ne_nil
    cases hc
    exact h.blank _ (List.mem_cons_self ..)

/-- Blanks around a part are dropped. -/
private theorem trimChars_pad {part : List Char} (h : IsPart part) (left right : Nat) :
    Text.trimChars (List.replicate left ' ' ++ (part ++ List.replicate right ' ')) = part := by
  have hright := trimLeft_pad h.reverse right []
  rw [List.append_nil] at hright
  rw [Text.trimChars, trimLeft_pad h, List.reverse_append, List.reverse_replicate, hright,
    List.reverse_reverse]

private theorem trimChars_ne_nil {cs : List Char} {c : Char} (h : c ∈ cs)
    (hc : Text.isBlank c = false) : Text.trimChars cs ≠ [] := by
  intro hnil
  have hblank : ∀ d ∈ Text.trimLeft cs, Text.isBlank d = true := by
    intro d hd
    exact List.dropWhile_eq_nil_iff.mp (List.reverse_eq_nil_iff.mp hnil) d (List.mem_reverse.mpr hd)
  cases hleft : Text.trimLeft cs with
  | nil => simp [List.dropWhile_eq_nil_iff.mp hleft c h] at hc
  | cons d ds => simpa [Text.isBlank_head_trimLeft hleft] using hblank d (by simp [hleft])

/-- Parts that are joined are found again. -/
theorem splitBars_intercalate {parts : List String} (hne : parts ≠ [])
    (h : ∀ part ∈ parts, IsPart part.toList) (left : Nat) :
    (splitBars (List.replicate left ' ' ++ (" | ".intercalate parts).toList)).map Text.trimChars =
      parts.map String.toList := by
  have hbar {part : String} (hpart : IsPart part.toList) (right : Nat) (left : Nat) :
      '|' ∉ List.replicate left ' ' ++ (part.toList ++ List.replicate right ' ') := by
    simp [hpart.bar, List.mem_replicate]
  induction parts generalizing left with
  | nil => exact absurd rfl hne
  | cons part parts ih =>
    have hpart := h part (List.mem_cons_self ..)
    cases parts with
    | nil =>
      have hone := trimChars_pad hpart left 0
      have hnone := hbar hpart 0 left
      rw [List.replicate_zero, List.append_nil] at hone hnone
      rw [String.intercalate_singleton, splitBars_eq hnone, List.map_singleton, hone,
        List.map_singleton]
    | cons next parts =>
      have htext : List.replicate left ' ' ++ (" | ".intercalate (part :: next :: parts)).toList =
          (List.replicate left ' ' ++ (part.toList ++ List.replicate 1 ' ')) ++
            '|' :: (List.replicate 1 ' ' ++ (" | ".intercalate (next :: parts)).toList) := by
        simp [String.intercalate_cons_cons]
      rw [htext, splitBars_append (hbar hpart 1 left), List.map_cons, trimChars_pad hpart,
        ih (List.cons_ne_nil _ _) fun p hp => h p (List.mem_cons_of_mem _ hp)]
      rfl

/-! ## Bits -/

private theorem mapM_hexDigit? (n : Nat) :
    ∃ ds, (Nat.toDigits 16 n).mapM Json.hexDigit? = some ds ∧ ds ≠ [] ∧
      ds.foldl (fun n d => 16 * n + d) 0 = n := by
  induction n using Nat.strongRecOn with
  | ind n ih =>
    rw [Nat.toDigits_eq_if (by decide)]
    split
    · next h =>
      refine ⟨[n], by simp [Json.hexDigit?_digitChar h], List.cons_ne_nil _ _, ?_⟩
      simp
    · next h =>
      obtain ⟨ds, hds, -, hfold⟩ := ih (n / 16) (by omega)
      refine ⟨ds ++ [n % 16], ?_, by simp, ?_⟩
      · have hlast := Json.hexDigit?_digitChar (Nat.mod_lt n (by decide : 0 < 16))
        simp [hds, hlast]
      · rw [List.foldl_append, hfold]
        simp only [List.foldl_cons, List.foldl_nil]
        omega

/-- Bits in hexadecimal are read as they are written. -/
private theorem hexBits?_toDigits (bits : UInt32) :
    hexBits? (Nat.toDigits 16 bits.toNat) = some bits := by
  obtain ⟨ds, hds, hne, hfold⟩ := mapM_hexDigit? bits.toNat
  have hlt : bits.toNat < UInt32.size := bits.toNat_lt
  unfold hexBits?
  dsimp only
  split
  · next cs heq =>
    -- a plus is no digit
    rw [heq] at hds
    cases hds
  · rw [hds]
    simp [hne, hfold, hlt]

private theorem flag?_hexDigits (bits : UInt32) :
    flag? ("0x" ++ String.ofList (Text.hexDigits 0 bits.toNat)).toList = some bits := by
  have htext : ("0x" ++ String.ofList (Text.hexDigits 0 bits.toNat)).toList =
      '0' :: 'x' :: Nat.toDigits 16 bits.toNat := by
    simp [Text.hexDigits]
  rw [htext]
  exact hexBits?_toDigits bits

private theorem flag?_name : ∀ f ∈ flagNames, flag? f.1.toList = some f.2 := by
  decide

private theorem isPart_name : ∀ f ∈ flagNames, IsPart f.1.toList := by
  have hnames : ∀ f ∈ flagNames, f.1.toList ≠ [] ∧ '|' ∉ f.1.toList ∧
      (f.1.toList.all fun c => !Text.isBlank c) = true := by
    decide
  intro f hf
  obtain ⟨hne, hbar, hblank⟩ := hnames f hf
  refine ⟨hne, hbar, fun c hc => ?_⟩
  simpa using List.all_eq_true.mp hblank c hc

private theorem exists_digitChar {n : Nat} {c : Char} (h : c ∈ Nat.toDigits 16 n) :
    ∃ d < 16, c = d.digitChar := by
  induction n using Nat.strongRecOn with
  | ind n ih =>
    rw [Nat.toDigits_eq_if (by decide)] at h
    split at h
    · next hlt => exact ⟨n, hlt, List.mem_singleton.mp h⟩
    · rcases List.mem_append.mp h with h | h
      · exact ih (n / 16) (by omega) h
      · exact ⟨n % 16, Nat.mod_lt n (by decide), List.mem_singleton.mp h⟩

private theorem isPart_hexDigits (n : Nat) :
    IsPart ("0x" ++ String.ofList (Text.hexDigits 0 n)).toList := by
  have htext : ("0x" ++ String.ofList (Text.hexDigits 0 n)).toList =
      '0' :: 'x' :: Nat.toDigits 16 n := by
    simp [Text.hexDigits]
  have hdigit (c : Char) (h : c ∈ Nat.toDigits 16 n) : c ≠ '|' ∧ Text.isBlank c = false := by
    obtain ⟨d, hd, rfl⟩ := exists_digitChar h
    interval_cases d <;> decide
  rw [htext]
  refine ⟨List.cons_ne_nil _ _, ?_, ?_⟩
  · simp only [List.mem_cons, not_or]
    exact ⟨by decide, by decide, fun h => (hdigit _ h).1 rfl⟩
  · simp only [List.forall_mem_cons]
    exact ⟨by decide, by decide, fun c h => (hdigit c h).2⟩

private theorem and_or_distrib (x a b : UInt32) : x &&& (a ||| b) = (x &&& a) ||| (x &&& b) := by
  apply UInt32.eq_of_toBitVec_eq
  simp only [UInt32.toBitVec_and, UInt32.toBitVec_or]
  ext i
  simp [Bool.and_or_distrib_left]

private theorem and_or_and_not (x m : UInt32) : (x &&& m) ||| (x &&& ~~~m) = x := by
  rw [← and_or_distrib, UInt32.or_not_self, UInt32.and_neg_one]

/-- A single bit is set or not. -/
theorem and_bit {b : UInt32} {k : Nat} (hb : b.toNat = 2 ^ k) (x : UInt32) :
    x &&& b = b ∨ x &&& b = 0 := by
  have h : (x &&& b).toNat = (x.toNat.testBit k).toNat * 2 ^ k := by
    rw [UInt32.toNat_and, hb, Nat.and_two_pow]
  cases hbit : x.toNat.testBit k with
  | true => exact .inl (UInt32.toNat_inj.mp (by rw [h, hbit, hb]; simp))
  | false => exact .inr (UInt32.toNat_inj.mp (by rw [h, hbit]; simp))

private theorem and_name (x : UInt32) : ∀ f ∈ flagNames, x &&& f.2 = f.2 ∨ x &&& f.2 = 0 := by
  simp only [flagNames, List.forall_mem_cons, List.not_mem_nil, false_implies, implies_true,
    and_true]
  exact ⟨and_bit (k := 3) rfl x, and_bit (k := 4) rfl x, and_bit (k := 8) rfl x,
    and_bit (k := 10) rfl x⟩

/-- The bits of the names that are set are the named ones of all bits. -/
private theorem foldl_filter_names (x : UInt32) {fs : List (String × UInt32)}
    (h : ∀ f ∈ fs, x &&& f.2 = f.2 ∨ x &&& f.2 = 0) (bits : UInt32) :
    ((fs.filter fun f => x &&& f.2 == f.2).map Prod.snd).foldl (· ||| ·) (x &&& bits) =
      x &&& fs.foldl (fun bits f => bits ||| f.2) bits := by
  induction fs generalizing bits with
  | nil => rfl
  | cons f fs ih =>
    have hrest := ih (fun g hg => h g (List.mem_cons_of_mem _ hg)) (bits ||| f.2)
    rw [List.foldl_cons, ← hrest, and_or_distrib]
    by_cases hset : x &&& f.2 = f.2
    · rw [List.filter_cons_of_pos (by simpa using hset), List.map_cons, List.foldl_cons, hset]
    · have hclear := (h f (List.mem_cons_self ..)).resolve_left hset
      rw [List.filter_cons_of_neg (by simpa using hset), hclear, UInt32.or_zero]

/-- The parts that the text of modifiers is joined from, with the bits they stand for. -/
def flagParts (flags : UInt32) : List (String × UInt32) :=
  let others := flags &&& ~~~namedBits
  flagNames.filter (fun f => flags &&& f.2 == f.2) ++
    if others == 0 then [] else [("0x" ++ String.ofList (Text.hexDigits 0 others.toNat), others)]

theorem flagsText_eq (flags : UInt32) :
    flagsText flags = " | ".intercalate ((flagParts flags).map Prod.fst) := by
  unfold flagsText flagParts
  dsimp only
  rw [List.map_append]
  split <;> rfl

theorem flagParts_spec {flags : UInt32} {f : String × UInt32} (h : f ∈ flagParts flags) :
    IsPart f.1.toList ∧ flag? f.1.toList = some f.2 := by
  rcases List.mem_append.mp h with h | h
  · have hname := List.mem_of_mem_filter h
    exact ⟨isPart_name f hname, flag?_name f hname⟩
  · split at h
    · cases h
    · rw [List.mem_singleton.mp h]
      exact ⟨isPart_hexDigits _, flag?_hexDigits _⟩

theorem foldl_flagParts (flags : UInt32) :
    ((flagParts flags).map Prod.snd).foldl (· ||| ·) 0 = flags := by
  have hnamed := foldl_filter_names flags (and_name flags) 0
  rw [UInt32.and_zero] at hnamed
  rw [flagParts, List.map_append, List.foldl_append, hnamed]
  conv_rhs => rw [← and_or_and_not flags namedBits]
  split
  · next h => rw [eq_of_beq h, UInt32.or_zero]; rfl
  · rfl

private theorem trimChars_joined_ne_nil {part : String} (h : IsPart part.toList)
    (parts : List String) : Text.trimChars (" | ".intercalate (part :: parts)).toList ≠ [] := by
  obtain ⟨c, hc⟩ := List.exists_mem_of_ne_nil _ h.ne_nil
  refine trimChars_ne_nil (c := c) ?_ (h.blank c hc)
  cases parts with
  | nil => rwa [String.intercalate_singleton]
  | cons next parts => simp [String.intercalate_cons_cons, hc]

/-- Modifiers are read as they are written, those without a name included. -/
theorem parseFlags?_flagsText (flags : UInt32) : parseFlags? (flagsText flags) = some flags := by
  have hfold := foldl_flagParts flags
  rw [flagsText_eq]
  generalize hparts : flagParts flags = parts at hfold ⊢
  have hspec (f : String × UInt32) (hf : f ∈ parts) :
      IsPart f.1.toList ∧ flag? f.1.toList = some f.2 := flagParts_spec (hparts ▸ hf)
  cases parts with
  | nil => exact congrArg some hfold
  | cons f fs =>
    have hpart : ∀ name ∈ (f :: fs).map Prod.fst, IsPart name.toList := by
      intro name hname
      obtain ⟨g, hg, rfl⟩ := List.mem_map.mp hname
      exact (hspec g hg).1
    have hne : (f :: fs).map Prod.fst ≠ [] := List.cons_ne_nil _ _
    have hsplit := splitBars_intercalate hne hpart 0
    have hread : (splitBars (" | ".intercalate ((f :: fs).map Prod.fst)).toList).mapM
        (fun part => flag? (Text.trimChars part)) = some ((f :: fs).map Prod.snd) :=
      calc
        _ = ((splitBars (" | ".intercalate ((f :: fs).map Prod.fst)).toList).map
              Text.trimChars).mapM flag? := List.mapM_map.symm
        _ = some ((f :: fs).map Prod.snd) := by
          rw [List.replicate_zero, List.nil_append] at hsplit
          rw [hsplit, List.mapM_map, List.mapM_map]
          exact mapM_of_forall fun g hg => (hspec g hg).2
    have htrim := trimChars_joined_ne_nil (hspec f (List.mem_cons_self ..)).1 (fs.map Prod.fst)
    rw [parseFlags?, if_neg (by simpa using htrim), hread]
    exact congrArg some hfold

end Concolic.Method
