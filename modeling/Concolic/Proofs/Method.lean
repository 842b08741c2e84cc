import Concolic.Proofs.Program
import Concolic.Proofs.Ty.Spelling

/-!
# Keys of methods

The key of a method is one text: its class, a dot, its name, and the descriptors of its types, those
of the arguments in parentheses and with nothing between them. It can be taken apart again. The
class ends at the first dot, the name at the first parenthesis after it, and each descriptor where
reading it ends, since descriptors are a prefix code; a closing parenthesis begins none.

* `Method.Separable`: what the key has to be made of for this. The classes in the signature may have
  parentheses in their names.
* `Method.SameAs`: two methods are the same but for their modifiers.
* `Method.key_eq_iff`: keys are equal just if the methods are the same.
* `Program.Separable`: the methods and bodies of a program have such keys. What is found under the
  key of a method then is the method or body that was asked for.
-/

namespace Concolic

namespace Sample

/-- A method of one argument without a result. -/
def put (argument : Ty) (flags : UInt32) : Method :=
  .new "app.Store" "put" { args := [argument], ret := .void } flags

/-- Two methods that differ in their argument, one of them with a body. -/
def store : Program :=
  (Program.empty.addMethod (put .int Method.staticFlag)).addBody
    (Body.Builder.new (put (.object "a)b") 0) none).body

end Sample

/-! ## Signatures -/

namespace Ty

variable {t : Ty} {ts us : List Ty} {rest rest' : List Char}

theorem exists_ofDescriptor_iff : (∃ d, ofDescriptor d = .ok t) ↔ t.isDescribed = true := by
  constructor
  · rintro ⟨d, hd⟩
    exact (ofDescriptor_iff.mp hd).isDescribed
  · exact fun ht => ⟨t.descriptor, ofDescriptor_iff.mpr (describes_descriptor ht)⟩

theorem descriptor_inj {u : Ty} (ht : t.isDescribed = true) (hu : u.isDescribed = true)
    (h : t.descriptor = u.descriptor) : t = u := by
  have hread := (describes_descriptor ht).read []
  rw [h, (describes_descriptor hu).read []] at hread
  exact (Prod.mk.inj (Except.ok.inj hread)).1.symm

/-- A row of descriptors up to a closing parenthesis can be cut in one way only. -/
theorem flatMap_descriptor_inj (hts : ∀ t ∈ ts, t.isDescribed = true)
    (hus : ∀ u ∈ us, u.isDescribed = true)
    (h : ts.flatMap (·.descriptor.toList) ++ ')' :: rest =
      us.flatMap (·.descriptor.toList) ++ ')' :: rest') : ts = us ∧ rest = rest' := by
  -- The reader is run on both sides; it takes off the first type of each.
  have hread {t : Ty} (ht : t.isDescribed = true) (ts : List Ty) (rest : List Char) :
      readDescriptor ((t :: ts).flatMap (·.descriptor.toList) ++ ')' :: rest) =
        .ok (t, ts.flatMap (·.descriptor.toList) ++ ')' :: rest) := by
    rw [List.flatMap_cons, List.append_assoc]
    exact (describes_descriptor ht).read _
  have hstop (rest : List Char) : ∃ e, readDescriptor (')' :: rest) = .error e := ⟨_, rfl⟩
  induction ts generalizing us with
  | nil =>
    cases us with
    | nil => exact ⟨rfl, (List.cons.inj h).2⟩
    | cons u us =>
      obtain ⟨e, he⟩ := hstop rest
      rw [List.flatMap_nil, List.nil_append] at h
      rw [h, hread (hus u List.mem_cons_self)] at he
      cases he
  | cons t ts ih =>
    have hleft := hread (hts t List.mem_cons_self) ts rest
    cases us with
    | nil =>
      obtain ⟨e, he⟩ := hstop rest'
      rw [h, List.flatMap_nil, List.nil_append, he] at hleft
      cases hleft
    | cons u us =>
      rw [h, hread (hus u List.mem_cons_self)] at hleft
      obtain ⟨rfl, htail⟩ := Prod.mk.inj (Except.ok.inj hleft)
      obtain ⟨rfl, hrest⟩ := ih (fun t ht => hts t (List.mem_cons_of_mem _ ht))
        (fun u hu => hus u (List.mem_cons_of_mem _ hu)) htail.symm
      exact ⟨rfl, hrest⟩

end Ty

namespace Signature

variable {s s' : Signature}

/-- Every type of the signature can be read from a descriptor. -/
structure Described (s : Signature) : Prop where
  args : ∀ t ∈ s.args, ∃ d, Ty.ofDescriptor d = .ok t
  ret : ∃ d, Ty.ofDescriptor d = .ok s.ret

theorem toList_text (s : Signature) : s.text.toList =
    '(' :: (s.args.flatMap (·.descriptor.toList) ++ ')' :: s.ret.descriptor.toList) := by
  simp [text, String.toList_join, List.flatMap_map]

theorem text_inj (hs : s.Described) (hs' : s'.Described) (h : s.text = s'.text) : s = s' := by
  have hchars := congrArg String.toList h
  rw [toList_text, toList_text] at hchars
  obtain ⟨hargs, hret⟩ := Ty.flatMap_descriptor_inj
    (fun t ht => Ty.exists_ofDescriptor_iff.mp (hs.args t ht))
    (fun t ht => Ty.exists_ofDescriptor_iff.mp (hs'.args t ht)) (List.cons.inj hchars).2
  have hret : s.ret = s'.ret := Ty.descriptor_inj (Ty.exists_ofDescriptor_iff.mp hs.ret)
    (Ty.exists_ofDescriptor_iff.mp hs'.ret) (String.toList_inj.mp hret)
  cases s
  cases s'
  rw [Signature.mk.injEq]
  exact ⟨hargs, hret⟩

/-- A signature is read from the descriptors of its types. -/
theorem parse_descriptors (hs : s.Described) :
    parse (s.args.map Ty.descriptor) s.ret.descriptor = .ok s := by
  have hread {t : Ty} (ht : ∃ d, Ty.ofDescriptor d = .ok t) : Ty.parse t.descriptor = .ok t :=
    Ty.parse_descriptor_iff.mpr (Ty.exists_ofDescriptor_iff.mp ht)
  have hargs {ts : List Ty} (hts : ∀ t ∈ ts, ∃ d, Ty.ofDescriptor d = .ok t) :
      (ts.map Ty.descriptor).mapM Ty.parse = .ok ts := by
    induction ts with
    | nil => rfl
    | cons t ts ih =>
      rw [List.map_cons, List.mapM_cons, hread (hts t List.mem_cons_self),
        ih fun t ht => hts t (List.mem_cons_of_mem _ ht)]
      rfl
  rw [parse, hargs hs.args, hread hs.ret]
  rfl

end Signature

/-! ## Methods -/

namespace Method

variable {m m' : Method}

/-- The key of the method can be taken apart. -/
structure Separable (m : Method) : Prop where
  owner : '.' ∉ m.owner.toList
  name : '(' ∉ m.name.toList
  signature : m.signature.Described

/-- The methods differ in their modifiers at most. -/
structure SameAs (m m' : Method) : Prop where
  owner : m.owner = m'.owner
  name : m.name = m'.name
  signature : m.signature = m'.signature

theorem SameAs.trans {m'' : Method} (h : m.SameAs m') (h' : m'.SameAs m'') : m.SameAs m'' :=
  ⟨h.owner.trans h'.owner, h.name.trans h'.name, h.signature.trans h'.signature⟩

theorem toList_key (m : Method) : m.key.toList =
    m.owner.toList ++ '.' :: (m.name.toList ++ m.signature.text.toList) := by
  simp [key]

theorem key_eq_iff (hm : m.Separable) (hm' : m'.Separable) : m.key = m'.key ↔ m.SameAs m' := by
  constructor
  · intro h
    have hchars := congrArg String.toList h
    rw [toList_key, toList_key] at hchars
    obtain ⟨howner, hrest⟩ := append_mark_inj hm.owner hm'.owner hchars
    rw [Signature.toList_text, Signature.toList_text] at hrest
    obtain ⟨hname, htypes⟩ := append_mark_inj hm.name hm'.name hrest
    refine ⟨String.toList_inj.mp howner, String.toList_inj.mp hname, ?_⟩
    refine Signature.text_inj hm.signature hm'.signature (String.toList_inj.mp ?_)
    rw [Signature.toList_text, Signature.toList_text, htypes]
  · intro h
    rw [key, key, h.owner, h.name, h.signature]

end Method

/-! ## Programs -/

namespace Program

variable {p : Program} {m m' : Method} {b : Body} {k owner name ret : String} {args : List String}
  {signature : Signature}

/-- The keys of all methods and bodies of the program can be taken apart. -/
structure Separable (p : Program) : Prop where
  method : ∀ k m, p.method? k = some m → m.Separable
  body : ∀ k b, p.bodies.get? k = some b → b.method.Separable

/-! ### Building -/

theorem separable_empty : Program.empty.Separable := by
  refine ⟨fun k m h => ?_, fun k b h => ?_⟩
  · cases h
  · cases h

theorem Separable.addMethod (hp : p.Separable) (hm : m.Separable) : (p.addMethod m).Separable := by
  refine ⟨fun k m' h => ?_, hp.body⟩
  rcases Table.get?_insert_eq_some h with ⟨-, rfl⟩ | ⟨-, h⟩
  · exact hm
  · exact hp.method k m' h

theorem Separable.addBody (hp : p.Separable) (hb : b.method.Separable) :
    (p.addBody b).Separable := by
  refine ⟨fun k m h => ?_, fun k b' h => ?_⟩
  · rcases Table.get?_insertNew_eq_some h with h | ⟨-, rfl⟩
    · exact hp.method k m h
    · exact hb
  · rcases Table.get?_insert_eq_some h with ⟨-, rfl⟩ | ⟨-, h⟩
    · exact hb
    · exact hp.body k b' h

/-! ### Lookup -/

theorem method_of_parse (h : Signature.parse args ret = .ok signature) :
    p.method owner name args ret =
      .ok ((p.method? (Method.new owner name signature 0).key).getD
        (Method.new owner name signature 0)) := by
  rw [method, h]
  rfl

theorem Separable.method?_iff (hp : p.Built) (hsep : p.Separable) (hm : m.Separable) :
    p.method? m.key = some m' ↔ (∃ k, p.method? k = some m') ∧ m'.SameAs m := by
  constructor
  · intro h
    exact ⟨⟨_, h⟩, (Method.key_eq_iff (hsep.method _ _ h) hm).mp (hp.key_of_method? h)⟩
  · rintro ⟨⟨k, h⟩, hsame⟩
    rw [← (Method.key_eq_iff (hsep.method _ _ h) hm).mpr hsame, hp.key_of_method? h, h]

theorem Separable.body_iff (hp : p.Built) (hsep : p.Separable) (hm : m.Separable) :
    p.body m = .ok b ↔ (∃ k, p.bodies.get? k = some b) ∧ b.method.SameAs m := by
  constructor
  · intro h
    have hget := body_eq_ok h
    exact ⟨⟨_, hget⟩,
      (Method.key_eq_iff (hsep.body _ _ hget) hm).mp (hp.sound.key _ _ hget)⟩
  · rintro ⟨⟨k, hget⟩, hsame⟩
    have hkey := (Method.key_eq_iff (hsep.body _ _ hget) hm).mpr hsame
    rw [Program.body, ← hkey, hp.sound.key _ _ hget, hget]

/-- What is found for a method, or else made up, is this method; no other is registered as it. -/
theorem Separable.getD_method? (hp : p.Built) (hsep : p.Separable) (hm : m.Separable) :
    ((p.method? m.key).getD m).SameAs m ∧
      ∀ k m', p.method? k = some m' → m'.SameAs m → m' = (p.method? m.key).getD m := by
  refine ⟨?_, fun k m' hm' hsame => ?_⟩
  · cases hget : p.method? m.key with
    | none => exact ⟨rfl, rfl, rfl⟩
    | some m' => exact ((hsep.method?_iff hp hm).mp hget).2
  · rw [(hsep.method?_iff hp hm).mpr ⟨⟨k, hm'⟩, hsame⟩, Option.getD_some]

/-- Keys are equal just if the methods are the same but for their modifiers, for methods whose class
has no dot, whose name has no opening parenthesis, and whose types are read from descriptors. So in
a program of such methods and bodies, the method that is found for a spelling has the class, the
name and the types of the spelling, and is the registered one if there is one; and the body that is
found for a method is the body of this method. -/
theorem keys_identify :
    (∀ m m' : Method, m.Separable → m'.Separable → (m.key = m'.key ↔ m.SameAs m')) ∧
    ∀ p : Program, p.Built → p.Separable →
      (∀ owner name args ret signature, Signature.parse args ret = .ok signature →
        '(' ∉ name.toList → signature.Described →
        ∃ m, p.method owner name args ret = .ok m ∧
          m.owner = slashed owner ∧ m.name = name ∧ m.signature = signature ∧
          ∀ k m', p.method? k = some m' → m'.SameAs m → m' = m) ∧
      ∀ m b, m.Separable →
        (p.body m = .ok b ↔ (∃ k, p.bodies.get? k = some b) ∧ b.method.SameAs m) := by
  refine ⟨fun m m' hm hm' => Method.key_eq_iff hm hm', fun p hp hsep => ⟨?_, ?_⟩⟩
  · intro owner name args ret signature hparse hname hsignature
    have hasked : (Method.new owner name signature 0).Separable :=
      ⟨dot_notMem_slashed owner, hname, hsignature⟩
    obtain ⟨hsame, hunique⟩ := hsep.getD_method? hp hasked
    exact ⟨_, method_of_parse hparse, hsame.owner, hsame.name, hsame.signature,
      fun k m' hm' hsame' => hunique k m' hm' (hsame'.trans hsame)⟩
  · exact fun m b hm => hsep.body_iff hp hm

theorem separable_put {argument : Ty} (h : argument.isDescribed = true) (flags : UInt32) :
    (Sample.put argument flags).Separable := by
  have hname : '(' ∉ "put".toList := by decide
  refine ⟨dot_notMem_slashed _, hname, ?_, Ty.exists_ofDescriptor_iff.mpr rfl⟩
  intro t ht
  obtain rfl := List.mem_singleton.mp ht
  exact Ty.exists_ofDescriptor_iff.mpr h

/-- Two methods of one class and name. The class in the signature of one of them has a parenthesis
in its name, and only this one has a body. -/
theorem keys_identify_store :
    let p := Sample.store
    let m := Sample.put (.object "a)b") 0
    let s : Signature := ⟨[.int], .void⟩
    let b := (Body.Builder.new m none).body
    (p.Built ∧ p.Separable ∧ m.Separable ∧ s.Described ∧ Signature.parse ["I"] "V" = .ok s) ∧
    (Sample.put .int 0).key ≠ m.key ∧
    (∃ m, p.method "app.Store" "put" ["I"] "V" = .ok m ∧ m.owner = slashed "app.Store" ∧
      m.name = "put" ∧ m.signature = s ∧ ∀ k m', p.method? k = some m' → m'.SameAs m → m' = m) ∧
    p.body m = .ok b := by
  intro p m s b
  have hbuilt : p.Built := .addBody (.addMethod _ .empty) ⟨_, .new m none, rfl⟩
  have hsep : p.Separable :=
    (separable_empty.addMethod (separable_put rfl _)).addBody (separable_put rfl _)
  have hm : m.Separable := separable_put rfl 0
  have hint : (Sample.put .int 0).Separable := separable_put rfl 0
  have hname : '(' ∉ "put".toList := by decide
  obtain ⟨hkeys, hprogram⟩ := keys_identify
  obtain ⟨hmethod, hbody⟩ := hprogram p hbuilt hsep
  have hparse : Signature.parse ["I"] "V" = .ok s := Signature.parse_descriptors hint.signature
  have hne : (Sample.put .int 0).key ≠ m.key := by
    intro hkey
    have hargs := congrArg Signature.args ((hkeys _ _ hint hm).mp hkey).signature
    cases List.singleton_inj.mp hargs
  exact ⟨⟨hbuilt, hsep, hm, hint.signature, hparse⟩, hne,
    hmethod "app.Store" "put" _ _ s hparse hname hint.signature,
    (hbody m b hm).mpr ⟨⟨m.key, Table.get?_insert_self _ _ _⟩, ⟨rfl, rfl, rfl⟩⟩⟩

end Program

end Concolic
