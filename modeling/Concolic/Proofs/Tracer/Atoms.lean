import Concolic.Proofs.Term.Atom
import Concolic.Proofs.Tracer.Fresh

/-!
# The terms of values

The terms that a tracer keeps are as simple as terms can be, and their names tell them apart as far
as names can.

* `Tracer.Clear t`: all terms that the tracer keeps are atoms, its named values have names that it
  has given, and no two of them have one name. Whatever moves through a tracer keeps this
  (`Shifted.clear`), and so does every run (`clear_run`).
* `Clear.homonyms`: different terms of one name that a tracer keeps are homonyms.
-/

namespace Concolic.Tracer

variable {t u : Tracer} {x y : Term}

theorem fresh_atom (t : Tracer) (v : Value) : (t.fresh v).Atom := by
  cases v with
  | receiver ty => exact .receiver ty
  | argument index ty => exact .argument ty index
  | constant c => exact .constant c
  | result name ty => exact .value ty _

/-- The terms that the tracer keeps are atoms, and a named value has a name that was given to it
alone. -/
structure Clear (t : Tracer) : Prop where
  atoms : ∀ x, t.Keeps x → x.Atom
  numbered : t.Numbered
  once : ∀ x y n, t.Keeps x → t.Keeps y → x.kind = .value n → y.kind = .value n → x = y

/-- A name that is given next was not given before. -/
theorem Numbered.fresh_ne {n : String} (h : t.Numbered) {v : Value}
    (hv : (t.fresh v).kind = .value n) (hx : t.Keeps x) : x.kind ≠ .value n := by
  intro hn
  obtain ⟨name, ty, rfl⟩ := fresh_named ⟨n, hv⟩
  obtain ⟨name', k, hname, hlt⟩ := h x hx n hn
  cases hv
  obtain ⟨rfl, rfl⟩ := numbered_inj hname
  exact absurd hlt (Nat.lt_irrefl _)

theorem Shift.clear (h : t.Shift u) (ht : t.Clear) : u.Clear := by
  refine ⟨fun x hx => ?_, (ht.numbered.supplied h.supplied).1, fun x y n hx hy hn hm => ?_⟩
  · cases h with
    | retain h => exact ht.atoms x (h.kept x hx)
    | bind v hframes =>
      rcases Keeps.of_binding hframes hx with rfl | hx
      · exact fresh_atom t v
      · exact ht.atoms x hx
  · cases h with
    | retain h => exact ht.once x y n (h.kept x hx) (h.kept y hy) hn hm
    | bind v hframes =>
      rcases Keeps.of_binding hframes hx with rfl | hx
      · rcases Keeps.of_binding hframes hy with rfl | hy
        · rfl
        · exact absurd hm (ht.numbered.fresh_ne hn hy)
      · rcases Keeps.of_binding hframes hy with rfl | hy
        · exact absurd hn (ht.numbered.fresh_ne hm hx)
        · exact ht.once x y n hx hy hn hm

theorem Shifted.clear (h : t.Shifted u) (ht : t.Clear) : u.Clear := by
  induction h with
  | refl => exact ht
  | tail _ hlast ih => exact hlast.clear ih

theorem clear_new (p : Program) (config : Config) (dispatch : Dispatch) :
    (new p config dispatch).Clear := by
  have hnone (x : Term) : ¬(new p config dispatch).Keeps x := by
    rintro ⟨place, hx⟩
    cases place <;> cases hx
  exact ⟨fun x hx => (hnone x hx).elim, numbered_new p config dispatch,
    fun x _ _ hx => (hnone x hx).elim⟩

theorem Clear.run (h : t.Clear) (es : List Event) : (t.run es).Clear := by
  induction es generalizing t with
  | nil => exact h
  | cons e es ih => exact ih ((deliver_shifted t e).clear h)

theorem clear_run (p : Program) (config : Config) (dispatch : Dispatch) (es : List Event) :
    ((new p config dispatch).run es).Clear := (clear_new p config dispatch).run es

namespace Clear

theorem endsInNumber (h : t.Clear) (hx : t.Keeps x) : x.EndsInNumber := fun n hn => by
  obtain ⟨name, k, hname, -⟩ := h.numbered x hx n hn
  exact ⟨name, k, hname⟩

/-- Different terms of one name are receivers, or arguments of one position. -/
theorem homonyms (h : t.Clear) (hx : t.Keeps x) (hy : t.Keeps y) (hname : x.name = y.name)
    (hne : (x == y) = false) : x.Homonyms y := by
  rcases Term.homonyms_of_name (h.atoms x hx) (h.atoms y hy) (h.endsInNumber hx)
    (h.endsInNumber hy) hname hne with hxy | ⟨n, hn, hm⟩
  · exact hxy
  · rw [h.once x y n hx hy hn hm, BEq.rfl] at hne
    cases hne

end Clear

end Concolic.Tracer
