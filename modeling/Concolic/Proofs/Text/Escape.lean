import Concolic.Text.Escape
import Mathlib.Data.List.Nodup

/-!
# Escaped text read back

An escape begins with a backslash, which stands nowhere else, and a reader knows where it ends: a
short escape has one more character, and the code point of a long one ends with a brace. So text can
be recovered from its escaped form.

* `Text.Escaped n cs`: the characters `cs` stand for the code point `n`.
* `Escaped.append_inj`: what stands for a code point, and what comes after it, can be read off.
* `escape_inj`, `quoteUnit_inj`: different texts and different units are written differently.
-/

namespace Concolic.Text

/-! ## Hexadecimal digits -/

private theorem digitChar_inj : ∀ m < 16, ∀ n < 16, Nat.digitChar m = Nat.digitChar n → m = n := by
  decide

private theorem digitChar_ne_brace : ∀ n < 16, Nat.digitChar n ≠ '\x7d' := by decide

private theorem toDigits_hex_inj {m n : Nat} (h : Nat.toDigits 16 m = Nat.toDigits 16 n) :
    m = n := by
  induction m using Nat.strongRecOn generalizing n with
  | ind m ih =>
    rw [Nat.toDigits_eq_if (by decide), Nat.toDigits_eq_if (n := n) (by decide)] at h
    split at h <;> split at h
    · next hm hn => exact digitChar_inj m hm n hn (List.singleton_inj.mp h)
    · exact absurd (List.append_eq_singleton_iff.mp h.symm) (by simp [Nat.toDigits_ne_nil])
    · exact absurd (List.append_eq_singleton_iff.mp h) (by simp [Nat.toDigits_ne_nil])
    · obtain ⟨hfront, hlast⟩ := List.append_inj' h rfl
      have hquotient : m / 16 = n / 16 := ih (m / 16) (by omega) hfront
      have hremainder := digitChar_inj (m % 16) (by omega) (n % 16) (by omega)
        (List.singleton_inj.mp hlast)
      omega

private theorem brace_notMem_toDigits (n : Nat) : '\x7d' ∉ Nat.toDigits 16 n := by
  induction n using Nat.strongRecOn with
  | ind n ih =>
    rw [Nat.toDigits_eq_if (by decide)]
    split
    · next hn => exact fun h => digitChar_ne_brace n hn (List.mem_singleton.mp h).symm
    · rw [List.mem_append, List.mem_singleton]
      rintro (h | h)
      · exact ih (n / 16) (by omega) h
      · exact digitChar_ne_brace (n % 16) (by omega) h.symm

/-- What stands before the first mark, and what comes after it, can be read off. -/
private theorem append_cons_inj {α : Type} {x : α} {as bs cs ds : List α} (ha : x ∉ as)
    (hb : x ∉ bs) (h : as ++ x :: cs = bs ++ x :: ds) : as = bs ∧ cs = ds := by
  induction as generalizing bs with
  | nil =>
    cases bs with
    | nil => exact ⟨rfl, (List.cons.inj h).2⟩
    | cons b bs => exact absurd ((List.cons.inj h).1 ▸ List.mem_cons_self) hb
  | cons a as ih =>
    cases bs with
    | nil => exact absurd ((List.cons.inj h).1 ▸ List.mem_cons_self) ha
    | cons b bs =>
      obtain ⟨rfl, htail⟩ := List.cons.inj h
      obtain ⟨rfl, hrest⟩ := ih (fun hx => ha (List.mem_cons_of_mem _ hx))
        (fun hx => hb (List.mem_cons_of_mem _ hx)) htail
      exact ⟨rfl, hrest⟩

/-! ## One code point -/

/-- The characters that have a short escape, each with the character after the backslash. -/
def shortEscapes : List (Char × Char) :=
  [('\t', 't'), ('\r', 'r'), ('\n', 'n'), ('\'', '\''), ('"', '"'), ('\\', '\\')]

private theorem shortEscapes_inj {d e : Char × Char} (hd : d ∈ shortEscapes) (he : e ∈ shortEscapes)
    (h : d.2 = e.2) : d = e := by
  have hnodup : (shortEscapes.map Prod.snd).Nodup := by decide
  exact List.inj_on_of_nodup_map hnodup hd he h

private theorem shortEscapes_ne_u {e : Char × Char} (he : e ∈ shortEscapes) : e.2 ≠ 'u' := by
  have hmarks : 'u' ∉ shortEscapes.map Prod.snd := by decide
  rintro h
  exact hmarks (List.mem_map.mpr ⟨e, he, h⟩)

/-- The characters stand for the code point: its character, a short escape or a long one. -/
inductive Escaped : Nat → List Char → Prop
  | plain {c : Char} (h : c ≠ '\\') : Escaped c.toNat [c]
  | short {c mark : Char} (h : (c, mark) ∈ shortEscapes) : Escaped c.toNat ['\\', mark]
  | long (n : Nat) : Escaped n (codePointEscape 0 n)

private theorem codePointEscape_zero (n : Nat) :
    codePointEscape 0 n = '\\' :: 'u' :: '\x7b' :: (Nat.toDigits 16 n ++ ['\x7d']) := by
  rw [codePointEscape, hexDigits, Nat.zero_sub]
  rfl

theorem escaped_escapeChar (c : Char) : Escaped c.toNat (escapeChar c) := by
  unfold escapeChar
  split
  case h_7 h =>
    split
    · exact .plain h
    · exact .long c.toNat
  all_goals exact .short (by decide)

/-- The code point that stands at the front of a text, and the rest of the text, can be read off. -/
theorem Escaped.append_inj {m n : Nat} {xs ys as bs : List Char} (hx : Escaped m xs)
    (hy : Escaped n ys) (h : xs ++ as = ys ++ bs) : m = n ∧ as = bs := by
  cases hx with
  | plain hc =>
    cases hy with
    | plain =>
      obtain ⟨rfl, hrest⟩ := List.cons.inj h
      exact ⟨rfl, hrest⟩
    | short => exact absurd (List.cons.inj h).1 hc
    | long => exact absurd (List.cons.inj h).1 hc
  | short hd =>
    cases hy with
    | plain hc => exact absurd (List.cons.inj h).1.symm hc
    | short he =>
      obtain ⟨hmark, hrest⟩ := List.cons.inj (List.cons.inj h).2
      cases shortEscapes_inj hd he hmark
      exact ⟨rfl, hrest⟩
    | long =>
      rw [codePointEscape_zero] at h
      exact absurd (List.cons.inj (List.cons.inj h).2).1 (shortEscapes_ne_u hd)
  | long =>
    rw [codePointEscape_zero] at h
    cases hy with
    | plain hc => exact absurd (List.cons.inj h).1.symm hc
    | short he =>
      exact absurd (List.cons.inj (List.cons.inj h).2).1.symm (shortEscapes_ne_u he)
    | long =>
      rw [codePointEscape_zero] at h
      have h : Nat.toDigits 16 m ++ '\x7d' :: as = Nat.toDigits 16 n ++ '\x7d' :: bs := by
        simpa using h
      obtain ⟨hdigits, h⟩ :=
        append_cons_inj (brace_notMem_toDigits m) (brace_notMem_toDigits n) h
      exact ⟨toDigits_hex_inj hdigits, h⟩

/-! ## Texts and units -/

theorem Escaped.ne_nil {n : Nat} {cs : List Char} (h : Escaped n cs) : cs ≠ [] := by
  cases h with
  | plain | short => exact List.cons_ne_nil _ _
  | long => exact codePointEscape_zero n ▸ List.cons_ne_nil _ _

theorem escapeChars_inj {cs ds : List Char} (h : escapeChars cs = escapeChars ds) : cs = ds := by
  induction cs generalizing ds with
  | nil =>
    cases ds with
    | nil => rfl
    | cons d ds => exact absurd (List.append_eq_nil_iff.mp h.symm).1 (escaped_escapeChar d).ne_nil
  | cons c cs ih =>
    cases ds with
    | nil => exact absurd (List.append_eq_nil_iff.mp h).1 (escaped_escapeChar c).ne_nil
    | cons d ds =>
      obtain ⟨hhead, htail⟩ := (escaped_escapeChar c).append_inj (escaped_escapeChar d) h
      rw [Char.toNat_inj.mp hhead, ih htail]

theorem escape_inj {s t : String} (h : escape s = escape t) : s = t :=
  String.toList_inj.mp (escapeChars_inj (String.ofList_inj.mp h))

/-- A lone half of a surrogate pair has four hexadecimal digits anyway. -/
private theorem codePointEscape_four {n : Nat} (h : 0x1000 ≤ n) :
    codePointEscape 4 n = codePointEscape 0 n := by
  have hlength : ¬ (Nat.toDigits 16 n).length ≤ 3 := by
    rw [Nat.length_toDigits_le_iff (by decide) (by decide)]
    omega
  have hpadding : 4 - (Nat.toDigits 16 n).length = 0 - (Nat.toDigits 16 n).length := by omega
  rw [codePointEscape, codePointEscape, hexDigits, hexDigits, hpadding]

/-- What stands between the quotes of a unit stands for the unit. -/
private theorem quoteUnit_eq (unit : UInt16) :
    ∃ body, quoteUnit unit = String.ofList ('\'' :: body ++ ['\'']) ∧
      Escaped unit.toNat body := by
  refine ⟨_, rfl, ?_⟩
  split
  · next h =>
    simp only [Bool.and_eq_true, decide_eq_true_eq] at h
    rw [codePointEscape_four (by omega)]
    exact .long unit.toNat
  · next h =>
    simp only [Bool.and_eq_true, decide_eq_true_eq, not_and, Nat.not_le] at h
    have hlt : unit.toNat < 65536 := unit.toNat_lt
    have hvalid : unit.toNat.isValidChar := by
      unfold Nat.isValidChar
      omega
    have hchar : (Char.ofNat unit.toNat).toNat = unit.toNat := by
      rw [Char.ofNat, dif_pos hvalid]
      rfl
    have hescaped := escaped_escapeChar (Char.ofNat unit.toNat)
    rwa [hchar] at hescaped

theorem quoteUnit_inj {a b : UInt16} (h : quoteUnit a = quoteUnit b) : a = b := by
  obtain ⟨as, ha, hescaped⟩ := quoteUnit_eq a
  obtain ⟨bs, hb, hescaped'⟩ := quoteUnit_eq b
  rw [ha, hb] at h
  have hbody := (List.cons.inj (String.ofList_inj.mp h)).2
  exact UInt16.toNat_inj.mp (hescaped.append_inj hescaped' hbody).1

end Concolic.Text
