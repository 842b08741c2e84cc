import Concolic.Proofs.Body

/-!
# Names of instructions

A trace gives instructions by name. In a program that was built, a name means at most one
instruction of a method, and an instruction is told from all others by its method and its name.

* `Body.Indexed`: the index of a body by name, the instructions and their positions in the blocks
  fit together. Every body that was built is indexed (`Body.Built.indexed`).
* `Program.named? p ms name`: what a name means while the methods `ms` are executed, the innermost
  first.
* `Program.Contains p i`: the instruction stands in a body of the program.
* `Program.Knows p i`: the method and the name of the instruction lead to it. What a program
  contains is known (`Program.Built.knows`), and known instructions that count as the same are
  identical (`Program.Knows.eq_of_beq`).
* `Program.next? p i`: the instruction at which the execution goes on after a call. It belongs to
  the same method and is not the call itself (`Program.Built.method_of_next?`,
  `Program.Built.beq_next?`).
-/

namespace Concolic

theorem Instruction.beq_iff {i j : Instruction} :
    (i == j) = true ↔ i.name = j.name ∧ i.method = j.method := by
  show (i.name == j.name && i.method == j.method) = true ↔ _
  simp

namespace Body

theorem mem_of_next? {b : Body} {i j : Instruction} (h : b.next? i = some j) :
    i.method = b.method ∧ j ∈ b.instructions := by
  unfold next? at h
  split at h
  · next hmethod =>
    obtain ⟨block, -, h⟩ := Option.bind_eq_some_iff.mp h
    obtain ⟨k, -, h⟩ := Option.bind_eq_some_iff.mp h
    obtain ⟨place, -, h⟩ := Option.bind_eq_some_iff.mp h
    exact ⟨hmethod, List.mem_of_getElem? h⟩
  · cases h

/-! ## The index of a body -/

structure Indexed (b : Body) : Prop where
  /-- The name of an instruction leads to its place. -/
  placed : ∀ k i, b.instructions[k]? = some i → i.position = k ∧ b.byName.get? i.name = some k
  /-- The blocks hold no place twice. -/
  nodup : ∀ block ∈ b.blocks, block.positions.Nodup
  /-- The blocks hold places of instructions only. -/
  bounded : ∀ block ∈ b.blocks, ∀ k ∈ block.positions, k < b.instructions.length

namespace Indexed

variable {b : Body} {i j : Instruction}

theorem instruction?_of_mem (hb : b.Indexed) (h : i ∈ b.instructions) :
    b.instruction? i.name = some i := by
  obtain ⟨k, hk⟩ := List.getElem?_of_mem h
  have hplace := (hb.placed k i hk).2
  exact Option.bind_eq_some_iff.mpr ⟨k, hplace, hk⟩

/-- An instruction and the one after it have different names. -/
theorem name_ne_of_next? (hb : b.Indexed) (hi : i ∈ b.instructions) (h : b.next? i = some j) :
    i.name ≠ j.name := by
  unfold next? at h
  split at h
  · obtain ⟨block, hblock, h⟩ := Option.bind_eq_some_iff.mp h
    obtain ⟨k, hk, h⟩ := Option.bind_eq_some_iff.mp h
    obtain ⟨place, hplace, hj⟩ := Option.bind_eq_some_iff.mp h
    obtain ⟨l, hl⟩ := List.getElem?_of_mem hi
    have hlater : i.position ≠ place := by
      obtain ⟨hklt, hk, -⟩ := List.findIdx?_eq_some_iff_getElem.mp hk
      obtain ⟨hplt, hplace⟩ := List.getElem?_eq_some_iff.mp hplace
      have hnodup := hb.nodup block (List.mem_of_getElem? hblock)
      have hne := List.pairwise_iff_getElem.mp hnodup k (k + 1) hklt hplt (Nat.lt_succ_self k)
      rw [eq_of_beq hk, hplace] at hne
      exact hne
    intro hname
    have hl' := hb.placed l i hl
    have hj' := hb.placed place j hj
    rw [hname, hj'.2] at hl'
    exact hlater (hl'.1.trans (Option.some.inj hl'.2).symm)
  · cases h

end Indexed

theorem Tabled.indexed {b : Body} (hb : b.Tabled) : b.Indexed := by
  refine ⟨fun k i hi => ?_, fun block h => ?_, fun block h k hk => ?_⟩
  · exact ⟨hb.position k i hi, (hb.byName i.name k).mpr ⟨i, hi, rfl⟩⟩
  · exact (hb.increasing h).imp Nat.ne_of_lt
  · obtain ⟨id, hid⟩ := List.getElem?_of_mem h
    obtain ⟨i, hi, -⟩ := (hb.mem_positions hid k).mp hk
    exact (List.getElem?_eq_some_iff.mp hi).1

theorem Built.indexed {b : Body} (h : b.Built) : b.Indexed := h.tabled.indexed

end Body

/-! ## Instructions of a program -/

namespace Program

/-- The instruction of a name in the innermost of the methods that are executed. -/
def named? (p : Program) (ms : List Method) (name : String) : Option Instruction := do
  let b ← (p.body (← ms.head?)).toOption
  b.instruction? name

/-- The instruction after the given one in its block. -/
def next? (p : Program) (i : Instruction) : Option Instruction := do
  (← (p.body i.method).toOption).next? i

/-- The instruction stands in a body of the program. -/
def Contains (p : Program) (i : Instruction) : Prop :=
  ∃ m b, p.body m = .ok b ∧ i ∈ b.instructions

/-- The method and the name of the instruction lead to it. -/
def Knows (p : Program) (i : Instruction) : Prop :=
  ∃ b, p.body i.method = .ok b ∧ b.instruction? i.name = some i

variable {p : Program} {i j : Instruction}

theorem Built.indexed (h : p.Built) {k : String} {b : Body} (hb : p.bodies.get? k = some b) :
    b.Indexed := (h.body hb).indexed

theorem toOption_eq_some {α : Type} {r : Result α} {a : α} (h : r.toOption = some a) :
    r = .ok a := by
  cases r with
  | ok b => cases h; rfl
  | error e => cases h

theorem named?_cons {m : Method} {ms : List Method} {b : Body} (hb : p.body m = .ok b)
    (name : String) : p.named? (m :: ms) name = b.instruction? name := by
  show (p.body m).toOption.bind _ = _
  rw [hb]
  rfl

/-- What a name means is an instruction of the body of the innermost method. -/
theorem named?_eq_some {ms : List Method} {name : String} (h : p.named? ms name = some i) :
    ∃ m ms' b, ms = m :: ms' ∧ p.body m = .ok b ∧ b.instruction? name = some i := by
  cases ms with
  | nil => cases h
  | cons m ms' =>
    obtain ⟨b, hb, hi⟩ := Option.bind_eq_some_iff.mp h
    exact ⟨m, ms', b, rfl, toOption_eq_some hb, hi⟩

theorem contains_of_named? {ms : List Method} {name : String} (h : p.named? ms name = some i) :
    p.Contains i := by
  obtain ⟨m, ms', b, -, hb, hi⟩ := named?_eq_some h
  exact ⟨m, b, hb, Body.mem_of_instruction? hi⟩

/-- What a program contains is known. -/
theorem Built.knows (hp : p.Built) (h : p.Contains i) : p.Knows i := by
  obtain ⟨m, b, hb, hi⟩ := h
  exact ⟨b, hp.sound.body_of_mem hb hi, (hp.indexed (body_eq_ok hb)).instruction?_of_mem hi⟩

theorem Built.knows_of_named? (hp : p.Built) {ms : List Method} {name : String}
    (h : p.named? ms name = some i) : p.Knows i := hp.knows (contains_of_named? h)

/-- Known instructions that count as the same are identical. -/
theorem Knows.eq_of_beq (hi : p.Knows i) (hj : p.Knows j) (h : (i == j) = true) : i = j := by
  obtain ⟨b, hb, hi⟩ := hi
  obtain ⟨c, hc, hj⟩ := hj
  obtain ⟨hname, hmethod⟩ := Instruction.beq_iff.mp h
  rw [hmethod, hc] at hb
  cases hb
  rw [hname, hj] at hi
  exact (Option.some.inj hi).symm

theorem next?_eq_some (h : p.next? i = some j) :
    ∃ b, p.body i.method = .ok b ∧ b.next? i = some j := by
  obtain ⟨b, hb, hj⟩ := Option.bind_eq_some_iff.mp h
  exact ⟨b, toOption_eq_some hb, hj⟩

/-- The execution goes on in the method of the call. -/
theorem Built.method_of_next? (hp : p.Built) (h : p.next? i = some j) : j.method = i.method := by
  obtain ⟨b, hb, hj⟩ := next?_eq_some h
  obtain ⟨hmethod, hmem⟩ := Body.mem_of_next? hj
  rw [hmethod]
  exact (hp.sound.body _ _ (body_eq_ok hb)).method j hmem

/-- The execution goes on at an instruction of the program. -/
theorem Built.knows_of_next? (hp : p.Built) (h : p.next? i = some j) : p.Knows j := by
  obtain ⟨b, hb, hj⟩ := next?_eq_some h
  exact hp.knows ⟨_, b, hb, (Body.mem_of_next? hj).2⟩

/-- The execution goes on at another instruction than the call. -/
theorem Built.beq_next? (hp : p.Built) (hi : p.Knows i) (h : p.next? i = some j) :
    (j == i) = false := by
  obtain ⟨b, hb, hmem⟩ := hi
  obtain ⟨c, hc, hj⟩ := next?_eq_some h
  rw [hb] at hc
  cases hc
  have hne := (hp.indexed (body_eq_ok hb)).name_ne_of_next? (Body.mem_of_instruction? hmem) hj
  rw [Bool.eq_false_iff, ne_eq, Instruction.beq_iff]
  exact fun heq => hne heq.1.symm

end Program

end Concolic
