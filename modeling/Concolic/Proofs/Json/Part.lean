import Concolic.Json.Part
import Concolic.Proofs.Json.Text

/-!
# Parts of documents that were written and read

* `sent j`: the document after it was written and read.
* `unsigned?_sent`, `signed?_sent`, `readNumber_writeFp`: numbers come back if they fit, and a
  number that is not finite comes back as `null`.
* `slots?_sent`, `record?_of_slots?`: the fields of a record come back in the order of their names.
  Readers that recurse get each field with a proof that it is smaller, and `exists_part` finds it.
* `list?_sent`: a list comes back if its elements do.
-/

namespace Concolic

section Keep

variable {α β : Type}

/-- The value, if it is wanted. -/
def keepIf (p : Bool) (a : α) : Option α := if p then some a else none

@[simp] theorem keepIf_true (a : α) : keepIf true a = some a := rfl

@[simp] theorem keepIf_false (a : α) : keepIf false a = none := rfl

@[simp] theorem map_keepIf (p : Bool) (a : α) (f : α → β) :
    (keepIf p a).map f = keepIf p (f a) := by
  cases p <;> rfl

@[simp] theorem keepIf_bind_some (p : Bool) (a : α) (f : α → β) :
    ((keepIf p a).bind fun a => some (f a)) = keepIf p (f a) := by
  cases p <;> rfl

@[simp] theorem keepIf_bind_keepIf (p q : Bool) (a : α) (f : α → β) :
    ((keepIf p a).bind fun a => keepIf q (f a)) = keepIf (p && q) (f a) := by
  cases p <;> rfl

/-- A list is kept if all of its elements are. -/
private theorem mapM_keepIf {f : α → Option β} {g : α → β} {p : α → Bool} {as : List α}
    (h : ∀ a ∈ as, f a = keepIf (p a) (g a)) : as.mapM f = keepIf (as.all p) (as.map g) := by
  induction as with
  | nil => rfl
  | cons a as ih =>
    have hrest := ih fun b hb => h b (List.mem_cons_of_mem _ hb)
    rw [List.mapM_cons, h a (List.mem_cons_self ..), hrest, List.all_cons]
    cases p a <;> cases as.all p <;> rfl

theorem mapM_of_forall {f : α → Option β} {g : α → β} {as : List α}
    (h : ∀ a ∈ as, f a = some (g a)) : as.mapM f = some (as.map g) := by
  have hall := mapM_keepIf (p := fun _ => true) h
  rwa [List.all_eq_true.mpr fun _ _ => rfl] at hall

end Keep

namespace Json

/-- The document as it is read after it was written. -/
def sent (j : Json) : Json := j.mapLeaves reread

@[simp] theorem sent_null : null.sent = null := rfl

@[simp] theorem sent_bool (b : Bool) : (bool b).sent = bool b := rfl

@[simp] theorem sent_str (s : String) : (str s).sent = str s := rfl

@[simp] theorem sent_tag (name : String) (j : Json) : (tag name j).sent = tag name j.sent := rfl

@[simp] theorem sent_arr (js : List Json) : (arr js).sent = arr (js.map sent) := by
  have h : mapLeavesAll reread js = js.map sent := by
    induction js with
    | nil => rfl
    | cons j js ih => rw [mapLeavesAll, ih, List.map_cons, sent]
  rw [sent, mapLeaves, h]

@[simp] theorem sent_obj (fields : List (String × Json)) :
    (obj fields).sent = obj (fields.map fun field => (field.1, field.2.sent)) := by
  have h : mapLeavesFields reread fields = fields.map fun field => (field.1, field.2.sent) := by
    induction fields with
    | nil => rfl
    | cons field fields ih => rw [mapLeavesFields, ih, List.map_cons, sent]
  rw [sent, mapLeaves, h]

/-! ## Numbers -/

theorem sent_eq_json (n : Int) : (int n).sent = (Numeral.ofInt n).json := by
  show (readNumber (toString n).toList).getD .null = _
  rw [← Numeral.text_ofInt, Numeral.readNumber_text (Numeral.proper_ofInt n), Option.getD_some]

theorem sent_int {n : Int} (hleast : -2 ^ 63 ≤ n) (hmost : n < 2 ^ 64) : (int n).sent = int n := by
  rw [sent_eq_json, Numeral.json_ofInt hleast hmost]

/-- A natural number is read if it fits a word. -/
@[simp] theorem nat?_sent (n : Nat) : (nat n).sent.nat? 64 = keepIf (decide (n < 2 ^ 64)) n := by
  by_cases h : n < 2 ^ 64
  · rw [nat, sent_int (by omega) (by omega), decide_eq_true h, nat?, intIn?,
      if_pos (by simp; omega)]
    rfl
  · have hsize : UInt64.size = 2 ^ 64 := rfl
    have hjson : (Numeral.ofInt n).json =
        .decimal (Numeral.ofInt n).negative (Numeral.ofInt n).decimal := by
      rw [Numeral.json, if_pos]
      simp only [Numeral.ofInt, Fp.ofDigits_toDigits, Int.natAbs_natCast, hsize, Bool.or_eq_true,
        decide_eq_true_eq]
      omega
    rw [nat, sent_eq_json, hjson, decide_eq_false h]
    rfl

theorem unsigned?_sent {bits : Nat} (hbits : bits ≤ 64) {n : Nat} (h : n < 2 ^ bits) :
    (nat n).sent.nat? bits = some n := by
  have hpow : 2 ^ bits ≤ 2 ^ 64 := Nat.pow_le_pow_right (by decide) hbits
  have hrange : (0 : Int) ≤ n ∧ (n : Int) < (Nat.pow 2 bits : Nat) :=
    ⟨Int.natCast_nonneg n, by exact_mod_cast h⟩
  rw [nat, sent_int (by omega) (by omega), nat?, intIn?, if_pos hrange]
  rfl

theorem signed?_sent {bits : Nat} (hbits : bits ≤ 64) {n : Int} (hleast : -2 ^ (bits - 1) ≤ n)
    (hmost : n < 2 ^ (bits - 1)) : (int n).sent.signed? bits = some n := by
  have hpow : (2 : Int) ^ (bits - 1) ≤ 2 ^ 63 := by
    exact_mod_cast Nat.pow_le_pow_right (by decide) (by omega : bits - 1 ≤ 63)
  have hrange : -(Nat.pow 2 (bits - 1) : Int) ≤ n ∧ n < (Nat.pow 2 (bits - 1) : Nat) := by
    exact_mod_cast And.intro hleast hmost
  rw [sent_int (by omega) (by omega), signed?, intIn?, if_pos hrange]

@[simp] theorem int8?_sent (n : Int8) : (int n.toInt).sent.int8? = some n := by
  rw [int8?, signed?_sent (by decide) n.le_toInt n.toInt_lt, Option.map_some, Int8.ofInt_toInt]

@[simp] theorem int16?_sent (n : Int16) : (int n.toInt).sent.int16? = some n := by
  rw [int16?, signed?_sent (by decide) n.le_toInt n.toInt_lt, Option.map_some, Int16.ofInt_toInt]

@[simp] theorem int32?_sent (n : Int32) : (int n.toInt).sent.int32? = some n := by
  rw [int32?, signed?_sent (by decide) n.le_toInt n.toInt_lt, Option.map_some, Int32.ofInt_toInt]

@[simp] theorem int64?_sent (n : Int64) : (int n.toInt).sent.int64? = some n := by
  rw [int64?, signed?_sent (by decide) n.le_toInt n.toInt_lt, Option.map_some, Int64.ofInt_toInt]

@[simp] theorem uint16?_sent (n : UInt16) : (nat n.toNat).sent.uint16? = some n := by
  rw [uint16?, unsigned?_sent (by decide) n.toNat_lt, Option.map_some, UInt16.ofNat_toNat]

@[simp] theorem uint32?_sent (n : UInt32) : (nat n.toNat).sent.uint32? = some n := by
  rw [uint32?, unsigned?_sent (by decide) n.toNat_lt, Option.map_some, UInt32.ofNat_toNat]

@[simp] theorem uint64?_sent (n : UInt64) : (nat n.toNat).sent.uint64? = some n := by
  rw [uint64?, unsigned?_sent (by decide) n.toNat_lt, Option.map_some, UInt64.ofNat_toNat]

/-- A finite number becomes a decimal that is nearest to it, every other one `null`. -/
theorem readNumber_writeFp {f : Fp.Format} (hf : f.Common) (x : Fp f) :
    (x.isFinite = true ∧ ∃ y, (readNumber (writeFp x).toList).getD null = decimal x.negative y ∧
      Fp.nearest? f x.negative y = some x) ∨
    (x.isFinite = false ∧ (readNumber (writeFp x).toList).getD null = null) := by
  by_cases h : x.isFinite = true
  · obtain ⟨n, hproper, htext, hjson, hnearest⟩ := exists_numeral_writeFp hf h
    refine .inl ⟨h, n.decimal, ?_, hnearest⟩
    rw [← htext, n.readNumber_text hproper, hjson, Option.getD_some]
  · refine .inr ⟨by simpa using h, ?_⟩
    rw [writeFp, if_neg h]
    rfl

@[simp] theorem single?_sent (x : Single) : (single x).sent.single? = keepIf x.isFinite x := by
  show ((readNumber (writeFp x).toList).getD null).single? = _
  rcases readNumber_writeFp Fp.Format.single_common x with ⟨h, y, hread, hnearest⟩ | ⟨h, hread⟩
  · rw [hread, h, single?, hnearest, keepIf_true]
  · rw [hread, h]
    rfl

@[simp] theorem double?_sent (x : Double) : (double x).sent.double? = keepIf x.isFinite x := by
  show ((readNumber (writeFp x).toList).getD null).double? = _
  rcases readNumber_writeFp Fp.Format.double_common x with ⟨h, y, hread, hnearest⟩ | ⟨h, hread⟩
  · rw [hread, h, double?, hnearest, keepIf_true]
  · rw [hread, h]
    rfl

/-! ## Parts -/

private theorem mapM_map_val {α β γ : Type} (g : β → γ) (f : α → Option β) (as : List α) :
    (as.mapM f).map (·.map g) = as.mapM fun a => (f a).map g := by
  induction as with
  | nil => rfl
  | cons a as ih =>
    rw [List.mapM_cons, List.mapM_cons, ← ih]
    cases f a <;> cases as.mapM f <;> rfl

theorem mapElements?_arr {α : Type} (js : List Json) (read : Json → Option α) :
    (arr js).mapElements? (fun part => read part.1) = js.mapM read := by
  show (js.attach.map _).mapM _ = _
  rw [List.mapM_map]
  conv_rhs => rw [← List.attach_map_subtype_val js, List.mapM_map]
  rfl

/-- The one field of a name, without the proof that it is smaller. -/
def field? (fields : List (String × Json)) (name : String) : Option (Option Json) :=
  match (fields.filter (·.1 == name)).map Prod.snd with
  | [] => some none
  | [j] => some (some j)
  | _ => none

private theorem fieldsNamed_map_val (fields : List (String × Json)) (name : String) :
    (fieldsNamed fields name).map Subtype.val = (fields.filter (·.1 == name)).map Prod.snd := by
  conv_rhs => rw [← List.attach_map_subtype_val fields, List.filter_map, List.map_map]
  rw [fieldsNamed, List.map_map]
  rfl

private theorem slot?_map_val (fields : List (String × Json)) (name : String) :
    (slot? fields name).map (·.map Subtype.val) = field? fields name := by
  have h := fieldsNamed_map_val fields name
  unfold slot? field?
  rw [← h]
  match fieldsNamed fields name with
  | [] => rfl
  | [part] => rfl
  | _ :: _ :: _ => rfl

theorem slots?_obj (way : Leeway) (names : List String) (fields : List (String × Json)) :
    (obj fields).slots? way names = names.mapM (field? fields) := by
  show (names.mapM (slot? fields)).map _ = _
  rw [mapM_map_val]
  simp only [slot?_map_val]

theorem field?_of_mem {fields : List (String × Json)} (hnodup : (fields.map Prod.fst).Nodup)
    {field : String × Json} (h : field ∈ fields) : field? fields field.1 = some (some field.2) := by
  have hfilter : fields.filter (·.1 == field.1) = [field] := by
    induction fields with
    | nil => cases h
    | cons other fields ih =>
      obtain ⟨hother, hrest⟩ := List.nodup_cons.mp hnodup
      rcases List.mem_cons.mp h with rfl | h
      · have hnone : fields.filter (·.1 == field.1) = [] := by
          refine List.filter_eq_nil_iff.mpr fun f hf heq => ?_
          exact hother (eq_of_beq heq ▸ List.mem_map_of_mem hf)
        rw [List.filter_cons_of_pos (by simp), hnone]
      · rw [List.filter_cons_of_neg, ih hrest h]
        intro heq
        exact hother (eq_of_beq heq ▸ List.mem_map_of_mem h)
  rw [field?, hfilter]
  rfl

/-- A record with all of its fields gives them in order. -/
theorem slots?_sent (way : Leeway) {names : List String} {fields : List (String × Json)}
    (hnames : fields.map Prod.fst = names) (hnodup : names.Nodup) :
    (obj fields).sent.slots? way names = some (fields.map fun field => some field.2.sent) := by
  subst hnames
  set sents := fields.map fun field => (field.1, field.2.sent) with hsents
  have hnodup : (sents.map Prod.fst).Nodup := by
    rwa [hsents, List.map_map]
  rw [sent_obj, slots?_obj, List.mapM_map]
  refine mapM_of_forall fun field hfield => ?_
  have hmem : (field.1, field.2.sent) ∈ sents := List.mem_map.mpr ⟨field, hfield, rfl⟩
  exact field?_of_mem hnodup hmem

theorem carried?_sent (way : Leeway) {names : List String} {fields : List (String × Json)}
    (hnames : fields.map Prod.fst = names) (hnodup : names.Nodup) :
    (obj fields).sent.carried? way names = some (fields.map fun field => some field.2.sent) := by
  have hslots := slots?_sent way hnames hnodup
  rw [sent_obj] at hslots ⊢
  exact hslots

@[simp] theorem only?_sent {α : Type} (way : Leeway) (name : String) (read : Json → Option α)
    (j : Json) : (obj [(name, j)]).sent.only? way name read = read j.sent := by
  rw [only?, carried?_sent way (by rfl) (List.nodup_singleton name)]
  rfl

/-- The parts of a record as `record?` gives them, from the parts without the proofs. -/
theorem record?_of_slots? {way : Leeway} {names : List String} {j : Json}
    {slots : List (Option Json)} (h : j.slots? way names = some slots) :
    ∃ parts, j.record? way names = some parts ∧ parts.map (·.map Subtype.val) = slots :=
  Option.map_eq_some_iff.mp h

theorem exists_part {j part : Json} {parts : List (Option (Part j))} {slots : List (Option Json)}
    (h : parts.map (·.map Subtype.val) = some part :: slots) :
    ∃ (p : Part j) (rest : List (Option (Part j))),
      parts = some p :: rest ∧ p.1 = part ∧ rest.map (·.map Subtype.val) = slots := by
  obtain ⟨slot, rest, rfl, hslot, hrest⟩ := List.map_eq_cons_iff.mp h
  obtain ⟨p, rfl, hp⟩ := Option.map_eq_some_iff.mp hslot
  exact ⟨p, rest, rfl, hp, hrest⟩

@[simp] theorem tagged?_tag (name : String) (j : Json) :
    (tag name j).tagged? = some (name, ⟨j, sizeOf_lt_obj (name, j) (List.mem_singleton.2 rfl)⟩) :=
  rfl

/-- What an alternative carries does not make it another word. -/
theorem eq_of_word?_tag {way : Leeway} {name word : String} {j : Json}
    (h : (tag name j).word? way = some word) : name = word := by
  unfold tag word? at h
  split at h
  · next heq => cases heq
  · next heq =>
    cases heq
    exact Option.some.inj h
  · next heq =>
    cases heq
    split at h
    · exact Option.some.inj h
    · cases h
  · cases h

theorem word?_tag_bind {α : Type} (way : Leeway) {name : String} (j : Json)
    {read : String → Option α} (h : read name = none) :
    ((tag name j).word? way).bind read = none := by
  cases hword : (tag name j).word? way with
  | none => rfl
  | some word =>
    rw [← eq_of_word?_tag hword]
    exact h

@[simp] theorem word?_str (way : Leeway) (s : String) : (str s).word? way = some s := rfl

/-- A list is read if all of its elements are. -/
theorem list?_sent {α : Type} {write : α → Json} {read : Json → Option α} {p : α → Bool}
    {as : List α} (h : ∀ a ∈ as, read (write a).sent = keepIf (p a) a) :
    (arr (as.map write)).sent.list? read = keepIf (as.all p) as := by
  have hall : as.mapM (fun a => read (write a).sent) = keepIf (as.all p) (as.map id) :=
    mapM_keepIf h
  rw [List.map_id] at hall
  rw [sent_arr, list?, List.map_map, List.mapM_map]
  exact hall

theorem list?_all {α : Type} {write : α → Json} {read : Json → Option α}
    (h : ∀ a, read (write a).sent = some a) (as : List α) :
    (arr (as.map write)).sent.list? read = some as := by
  have hall := list?_sent (p := fun _ => true) fun a (_ : a ∈ as) => h a
  rwa [List.all_eq_true.mpr fun _ _ => rfl] at hall

end Json

end Concolic
