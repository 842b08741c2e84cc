import Concolic.Proofs.Json.Number
import Concolic.Proofs.Term.Position
import Concolic.Proofs.Text.Escape
import Concolic.Proofs.Ty

/-!
# Equality of terms is faithful

Equality never looks at what a kind carries: it compares the word of the kind, the name of the term,
its type and its subterms. A name does not show all of a method, and what it shows of a
floating-point number is left out here. Everything else that a kind carries can be read off the name
once the type and the subterms are known.

* `Kind.Alike`: kinds that differ at most in what they carry. Words tell all others apart
  (`alike_of_name`).
* `Kind.isLegible`: the name shows what the kind carries.
* `Kind.eq_of_render`: so two such kinds with one word and one name are the same.
* `same_iff_eq`: hence terms of such kinds count as equal only if they are identical.
-/

namespace Concolic

namespace Sample

/-- The text is of the type just if it starts with the unit. -/
def initial (text : String) (ty : Ty) (unit : UInt16) : Term :=
  let text := Term.constant (.string text)
  ⟨.compare .eq, .bool,
    [⟨.instanceOf ty, .bool, [text]⟩,
     ⟨.compare .eq, .bool,
      [⟨.charAt, .char, [text, .constant (.int 0)]⟩, .constant (.char unit)]⟩]⟩

end Sample

/-- The text of a whole number is read back where an exponent stands. -/
private theorem toString_int_inj {m n : Int} (h : toString m = toString n) : m = n := by
  have htext : Json.exponentText (some m) = Json.exponentText (some n) := by
    rw [Json.exponentText, Json.exponentText, h]
  have hread := congrArg Json.readExponent htext
  rw [Json.Numeral.readExponent_exponentText, Json.Numeral.readExponent_exponentText] at hread
  exact Option.some.inj (Option.some.inj hread)

private theorem boolText_inj : ∀ b b', boolText b = boolText b' → b = b' := by decide

theorem BinaryOp.symbol_inj {op op' : BinaryOp} (h : op.symbol = op'.symbol) : op = op' := by
  have hall : ∀ op ∈ BinaryOp.all, ∀ op' ∈ BinaryOp.all, op.symbol = op'.symbol → op = op' := by
    decide
  exact hall op (by cases op <;> decide) op' (by cases op' <;> decide) h

theorem CompareOp.symbol_inj {op op' : CompareOp} (h : op.symbol = op'.symbol) : op = op' := by
  have hall : ∀ op ∈ CompareOp.all, ∀ op' ∈ CompareOp.all, op.symbol = op'.symbol → op = op' := by
    decide
  exact hall op (by cases op <;> decide) op' (by cases op' <;> decide) h

private theorem eq_of_between {l r s s' : String}
    (h : "(" ++ l ++ " " ++ s ++ " " ++ r ++ ")" = "(" ++ l ++ " " ++ s' ++ " " ++ r ++ ")") :
    s = s' := by
  rw [String.append_left_inj, String.append_left_inj, String.append_left_inj,
    String.append_right_inj] at h
  exact h

namespace Kind

/-- The kinds differ at most in what they carry. -/
inductive Alike : Kind → Kind → Prop
  | same (k : Kind) : Alike k k
  | argument (i i' : Nat) : Alike (.argument i) (.argument i')
  | value (name name' : String) : Alike (.value name) (.value name')
  | returnValue (m m' : Method) : Alike (.returnValue m) (.returnValue m')
  | constBool (b b' : Bool) : Alike (.constBool b) (.constBool b')
  | constByte (n n' : Int8) : Alike (.constByte n) (.constByte n')
  | constChar (unit unit' : UInt16) : Alike (.constChar unit) (.constChar unit')
  | constShort (n n' : Int16) : Alike (.constShort n) (.constShort n')
  | constInt (n n' : Int32) : Alike (.constInt n) (.constInt n')
  | constLong (n n' : Int64) : Alike (.constLong n) (.constLong n')
  | constFloat (x x' : Single) : Alike (.constFloat x) (.constFloat x')
  | constDouble (x x' : Double) : Alike (.constDouble x) (.constDouble x')
  | constString (s s' : String) : Alike (.constString s) (.constString s')
  | constClass (t t' : Ty) : Alike (.constClass t) (.constClass t')
  | field (name name' : String) : Alike (.field name) (.field name')
  | binary (op op' : BinaryOp) : Alike (.binary op) (.binary op')
  | compare (op op' : CompareOp) : Alike (.compare op) (.compare op')
  | instanceOf (t t' : Ty) : Alike (.instanceOf t) (.instanceOf t')
  | call (m m' : Method) : Alike (.call m) (.call m')

variable {k k' k'' : Kind}

theorem Alike.symm (h : Alike k k') : Alike k' k := by
  cases h <;> constructor

theorem Alike.trans (h : Alike k k') (h' : Alike k' k'') : Alike k k'' := by
  cases h <;> cases h' <;> constructor

/-- One kind for each word, in the order of the kinds. -/
def samples : List Kind :=
  let m : Method := ⟨"", "", ⟨[], .void⟩, 0⟩
  [.argument 0, .value "", .receiver, .returnValue m, .null, .constBool false, .constByte 0,
    .constChar 0, .constShort 0, .constInt 0, .constLong 0, .constFloat ⟨0⟩, .constDouble ⟨0⟩,
    .constString "", .constClass .void, .staticRef, .arrayIndex, .arrayLoad, .arrayLength,
    .arrayContains, .field "", .fieldLoad, .binary .add, .neg, .compare .eq, .equals, .cast,
    .instanceOf .void, .call m, .concat, .substring, .indexOf, .charAt, .stringLength,
    .stringContains, .startsWith, .endsWith, .stringParse, .toText, .forAll, .forSome, .ite,
    .lambda, .classAccess, .bound, .undef]

theorem nodup_names_samples : (samples.map name).Nodup := by decide +kernel

theorem exists_sample (k : Kind) : ∃ r, samples[k.ctorIdx]? = some r ∧ r.name = k.name ∧
    Alike k r := by
  cases k <;> exact ⟨_, rfl, rfl, by constructor⟩

-- Each kind is compared with the sample of its word, and not with all other kinds.
theorem alike_of_name (h : k.name = k'.name) : Alike k k' := by
  obtain ⟨r, hr, hname, hk⟩ := exists_sample k
  obtain ⟨r', hr', hname', hk'⟩ := exists_sample k'
  obtain rfl : r = r' := List.inj_on_of_nodup_map nodup_names_samples (List.mem_of_getElem? hr)
    (List.mem_of_getElem? hr') (by rw [hname, h, hname'])
  exact hk.trans hk'.symm

/-- The name of a term of the kind shows what the kind carries. -/
def isLegible : Kind → Bool
  | .returnValue _ | .call _ | .constFloat _ | .constDouble _ => false
  | .constClass t | .instanceOf t => t.isSpelled
  | _ => true

theorem eq_of_render {ty : Ty} {names : List String} (hk : k.isLegible = true)
    (hk' : k'.isLegible = true) (hword : k.name = k'.name)
    (h : k.render ty names = k'.render ty names) : k = k' := by
  cases alike_of_name hword with
  | same => rfl
  | argument i i' => rw [Value.argumentName_inj h]
  | value name name' => exact congrArg Kind.value h
  | constBool b b' => rw [boolText_inj b b' h]
  | constByte n n' => rw [Int8.toInt_inj.mp (toString_int_inj ((String.append_left_inj _).mp h))]
  | constChar unit unit' => rw [Text.quoteUnit_inj h]
  | constShort n n' => rw [Int16.toInt_inj.mp (toString_int_inj ((String.append_left_inj _).mp h))]
  | constInt n n' => rw [Int32.toInt_inj.mp (toString_int_inj h)]
  | constLong n n' => rw [Int64.toInt_inj.mp (toString_int_inj ((String.append_left_inj _).mp h))]
  | constString s s' =>
    have hbody := (String.append_right_inj _).mp ((String.append_left_inj _).mp h)
    rw [Text.escape_inj hbody]
  | constClass t t' => rw [Ty.text_inj hk hk' ((String.append_left_inj _).mp h)]
  | field name name' => rw [(String.append_right_inj _).mp h]
  | binary op op' => rw [BinaryOp.symbol_inj (eq_of_between h)]
  | compare op op' => rw [CompareOp.symbol_inj (eq_of_between h)]
  | instanceOf t t' => rw [Ty.text_inj hk hk' ((String.append_right_inj _).mp h)]
  | returnValue | call | constFloat | constDouble => cases hk

end Kind

namespace Term

/-- The kinds of all nodes are legible. -/
def isLegible (t : Term) : Bool := t.all fun s => s.kind.isLegible

-- The subterms come first: the names of equal ones are equal, so the kinds are rendered over the
-- same names.
mutual

theorem eq_of_same : (a b : Term) → a.isLegible = true → b.isLegible = true →
    a.same b = true → a = b
  | ⟨k, ty, subs⟩, ⟨k', ty', subs'⟩, ha, hb, h => by
    simp only [isLegible, all, Bool.and_eq_true] at ha hb
    simp only [same, Bool.and_eq_true, beq_iff_eq] at h
    obtain ⟨⟨⟨hword, hname⟩, rfl⟩, hsubs⟩ := h
    obtain rfl := eq_of_sameAll subs subs' ha.2 hb.2 hsubs
    rw [Kind.eq_of_render ha.1 hb.1 hword hname]

theorem eq_of_sameAll : (as bs : List Term) →
    allOf (fun s => s.kind.isLegible) as = true → allOf (fun s => s.kind.isLegible) bs = true →
    sameAll as bs = true → as = bs
  | [], [], _, _, _ => rfl
  | a :: as, b :: bs, ha, hb, h => by
    simp only [allOf, Bool.and_eq_true] at ha hb
    simp only [sameAll, Bool.and_eq_true] at h
    rw [eq_of_same a b ha.1 hb.1 h.1, eq_of_sameAll as bs ha.2 hb.2 h.2]
  | [], _ :: _, _, _, h => by cases h
  | _ :: _, [], _, _, h => by cases h

end

/-- Terms count as equal only if they are identical, what their kinds carry included, as long as no
node is a call, the value of a return or a floating-point constant, and the types of class literals
and type tests are spelled. -/
theorem same_iff_eq {a b : Term} (ha : a.isLegible = true) (hb : b.isLegible = true) :
    (a == b) = true ↔ a = b := by
  constructor
  · exact eq_of_same a b ha hb
  · rintro rfl
    exact same_refl a

/-- A quote before a line feed, and the text that its escapes would be. -/
theorem same_iff_eq_escapes :
    let a := Sample.initial "\"\n" (.array (.object "a/B")) 0xD800
    let b := Sample.initial "\\\"\\n" (.array (.object "a/B")) 0xD800
    (a.isLegible = true ∧ b.isLegible = true) ∧ ((a == b) = true ↔ a = b) :=
  ⟨⟨by decide +kernel, by decide +kernel⟩, same_iff_eq (by decide +kernel) (by decide +kernel)⟩

end Term

end Concolic
