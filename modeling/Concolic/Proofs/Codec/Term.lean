import Concolic.Codec.Term
import Concolic.Proofs.Codec.Value

/-!
# Terms and predicates read back

A term is written with its kind, its type and its subterms, which are left out if there are none
(`ofJson?_leaf`, `ofJson?_node`). It is read as it was written if the constants in it are
(`isStorable`), and a predicate is if its operands are.
-/

namespace Concolic

open Json

namespace Kind

/-- The kind has a written form. -/
def isStorable : Kind → Bool
  | .argument index => decide (index < 2 ^ 64)
  | .constFloat x => x.isFinite
  | .constDouble x => x.isFinite
  | _ => true

theorem ofJson?_sent (way : Leeway) (k : Kind) :
    ofJson? way k.toJson.sent = keepIf k.isStorable k := by
  cases k with
  | argument | value | returnValue | call | field | instanceOf | binary | compare | constBool
  | constByte | constChar | constShort | constInt | constLong | constFloat | constDouble
  | constString | constClass =>
    rw [toJson, sent_tag, ofJson?, word?_tag_bind _ _ (by decide), tagged?_tag]
    simp [isStorable, bool?, str?, BinaryOp.ofJson?, CompareOp.ofJson?, -sent_obj]
  | _ => rfl

end Kind

namespace Term

mutual

/-- The kinds in the term have a written form. -/
def isStorable : Term → Bool
  | ⟨kind, _, subterms⟩ => kind.isStorable && isStorableAll subterms

def isStorableAll : List Term → Bool
  | [] => true
  | t :: ts => t.isStorable && isStorableAll ts

end

theorem slots?_of_obj {way : Leeway} {j kind ty : Json} {subterms : Option Json}
    (h : j.slots? way ["kind", "type", "subterms"] = some [some kind, some ty, subterms]) :
    ∃ (k t : Part j) (s : Option (Part j)), slots? way j = some [some k, some t, s] ∧
      k.1 = kind ∧ t.1 = ty ∧ s.map Subtype.val = subterms := by
  obtain ⟨parts, hparts, hval⟩ := record?_of_slots? h
  obtain ⟨k, rest, rfl, hkind, hrest⟩ := exists_part hval
  obtain ⟨t, rest, rfl, hty, hrest⟩ := exists_part hrest
  obtain ⟨s, rest, rfl, hsubterms, hrest⟩ := List.map_eq_cons_iff.mp hrest
  obtain rfl := List.map_eq_nil_iff.mp hrest
  exact ⟨k, t, s, by rw [slots?, hparts], hkind, hty, hsubterms⟩

/-- Reads a term without subterms. -/
theorem ofJson?_leaf {way : Leeway} {j kind ty : Json}
    (h : j.slots? way ["kind", "type", "subterms"] = some [some kind, some ty, none]) :
    ofJson? way j = (do some ⟨← Kind.ofJson? way kind, ← Ty.ofJson? way ty, []⟩) := by
  obtain ⟨k, t, s, hslots, rfl, rfl, hs⟩ := slots?_of_obj h
  obtain rfl := Option.map_eq_none_iff.mp hs
  rw [ofJson?, hslots]

/-- Reads a term with subterms. -/
theorem ofJson?_node {way : Leeway} {j kind ty : Json} {subterms : List Json}
    (h : j.slots? way ["kind", "type", "subterms"] =
      some [some kind, some ty, some (arr subterms)]) :
    ofJson? way j = (do
      let children ← subterms.mapM (ofJson? way)
      some ⟨← Kind.ofJson? way kind, ← Ty.ofJson? way ty, children⟩) := by
  obtain ⟨k, t, s, hslots, rfl, rfl, hs⟩ := slots?_of_obj h
  obtain ⟨⟨part, hpart⟩, rfl, rfl⟩ := Option.map_eq_some_iff.mp hs
  rw [ofJson?, hslots]
  dsimp only
  rw [mapElements?_arr subterms (ofJson? way)]

mutual

/-- A term of any depth is read as it was written, if all of its kinds are. -/
theorem ofJson?_sent (way : Leeway) : (t : Term) →
    ofJson? way t.toJson.sent = keepIf t.isStorable t
  | ⟨kind, ty, []⟩ => by
    have hslots : (toJson ⟨kind, ty, []⟩).sent.slots? way ["kind", "type", "subterms"] =
        some [some kind.toJson.sent, some ty.toJson.sent, none] := by
      simp [toJson, slots?_obj, field?]
    rw [ofJson?_leaf hslots, Kind.ofJson?_sent]
    simp [isStorable, isStorableAll]
  | ⟨kind, ty, t :: ts⟩ => by
    have hslots : (toJson ⟨kind, ty, t :: ts⟩).sent.slots? way ["kind", "type", "subterms"] =
        some [some kind.toJson.sent, some ty.toJson.sent,
          some (arr ((toJsonAll (t :: ts)).map sent))] := by
      simp [toJson, slots?_obj, field?]
    rw [ofJson?_node hslots, mapM_ofJson?_sent way (t :: ts), Kind.ofJson?_sent]
    simp [isStorable, Bool.and_comm]

theorem mapM_ofJson?_sent (way : Leeway) : (ts : List Term) →
    ((toJsonAll ts).map sent).mapM (ofJson? way) = keepIf (isStorableAll ts) ts
  | [] => rfl
  | t :: ts => by
    rw [toJsonAll, List.map_cons, List.mapM_cons, ofJson?_sent way t, mapM_ofJson?_sent way ts]
    simp [isStorableAll]

end

end Term

namespace PredicateKind

theorem ofJson?_sent (way : Leeway) (k : PredicateKind) : ofJson? way k.toJson.sent = some k := by
  cases k with
  | call hasResult =>
    rw [toJson, sent_tag, ofJson?, word?_tag_bind _ _ (by decide), tagged?_tag]
    simp [bool?, -sent_obj]
  | _ => rfl

end PredicateKind

namespace Predicate

/-- The operands have a written form. -/
def isStorable (p : Predicate) : Bool := p.operands.all Term.isStorable

theorem ofJson?_sent (way : Leeway) (p : Predicate) :
    ofJson? way p.toJson.sent = keepIf p.isStorable p := by
  have hoperands := list?_sent fun t (_ : t ∈ p.operands) => Term.ofJson?_sent way t
  rw [toJson, ofJson?, slots?_sent way (by rfl) (by decide)]
  simp [PredicateKind.ofJson?_sent, Role.ofJson?, hoperands, isStorable, -sent_arr]

end Predicate

end Concolic
