import Concolic.Proofs.Program

/-!
# The tables of a body

The instructions of a body stand in one list, in the order in which they were added. Beside the list
there are tables: the position of each instruction by name, and for each block the positions of its
instructions. However a body is built, the tables say what the list says.

* `Body.Tabled`: every table is a function of the list. One step of a builder keeps this
  (`Builder.tabled_of_addInstruction` and its likes), so it holds of every body that was built
  (`Body.Built.tabled`).
* `Body.Consistent`: what follows for the tables among each other. The names are different, the
  positions count the instructions, and the blocks divide them up.
* `Body.Tabled.next?_eq_find?`: the instruction after a given one is the next of the list that
  belongs to the same block.
* `Body.Builder.perform`: what is left of a builder after any steps, those that fail included.
-/

namespace Concolic.Body

/-! ## Positions in a list -/

private theorem getElem?_concat_eq_some {α : Type} {xs : List α} {x y : α} {k : Nat} :
    (xs ++ [x])[k]? = some y ↔ xs[k]? = some y ∨ k = xs.length ∧ x = y := by
  grind

private theorem getElem?_set_eq_some {α : Type} {xs : List α} {x y : α} {n k : Nat}
    (h : (xs.set n x)[k]? = some y) : n = k ∧ x = y ∨ n ≠ k ∧ xs[k]? = some y := by
  grind

/-- In a list without repetition an element is found where it stands. -/
private theorem findIdx?_append_cons {xs ys : List Nat} {a : Nat} (h : (xs ++ a :: ys).Nodup) :
    (xs ++ a :: ys).findIdx? (· == a) = some xs.length := by
  have hnone : xs.findIdx? (· == a) = none := by
    rw [List.findIdx?_eq_none_iff]
    intro x hx
    have hne := (List.nodup_append.mp h).2.2 x hx a List.mem_cons_self
    exact beq_eq_false_iff_ne.mpr hne
  rw [List.findIdx?_append, hnone, List.findIdx?_cons, beq_self_eq_true, if_pos rfl]
  simp

private theorem getElem?_after (xs ys : List Nat) (a : Nat) :
    (xs ++ a :: ys)[xs.length + 1]? = ys.head? := by
  rw [List.append_cons, List.head?_eq_getElem?, List.getElem?_append_right (by simp)]
  simp

/-! ## Tables -/

/-- The tables of the body are what its list of instructions says. -/
structure Tabled (b : Body) : Prop where
  position : ∀ (k : Nat) (i : Instruction), b.instructions[k]? = some i → i.position = k
  byName : ∀ (name : String) (k : Nat),
    b.byName.get? name = some k ↔ ∃ i, b.instructions[k]? = some i ∧ i.name = name
  /-- A block holds the positions of its instructions, in the order of the list. -/
  positions : ∀ (k : Nat) (block : Block), b.blocks[k]? = some block →
    block.positions = (b.instructions.filter (·.block == k)).map Instruction.position
  handlers : ∀ block ∈ b.blocks, block.handlers.Nodup

/-! ## Building tables -/

namespace Builder

variable {b b' : Builder} {id : Nat} {name : String} {kind : InstKind} {result : Option Value}

theorem tabled_new (method : Method) (source : Option String) :
    (new method source).body.Tabled := by
  have hnone (k : Nat) (i : Instruction) : (new method source).body.instructions[k]? ≠ some i :=
    fun hi => List.not_mem_nil (List.mem_of_getElem? hi)
  refine ⟨fun k i hi => absurd hi (hnone k i), fun name k => ⟨fun h => ?_, ?_⟩, fun k block h => ?_,
    fun block h => absurd h List.not_mem_nil⟩
  · cases h
  · rintro ⟨i, hi, -⟩
    exact absurd hi (hnone k i)
  · exact absurd (List.mem_of_getElem? h) List.not_mem_nil

/-- The name of a new instruction leads to its position, and no other name does. -/
theorem byName_of_addInstruction (hb : b.body.Tabled) (hnew : b.body.byName.get? name = none)
    {i : Instruction} (hi : i.name = name) (name' : String) (k : Nat) :
    (b.body.byName.insert name b.body.instructions.length).get? name' = some k ↔
      ∃ j, (b.body.instructions ++ [i])[k]? = some j ∧ j.name = name' := by
  simp only [getElem?_concat_eq_some]
  by_cases heq : name' = name
  · subst heq
    rw [Table.get?_insert_self]
    constructor
    · rintro ⟨⟩
      exact ⟨i, .inr ⟨rfl, rfl⟩, hi⟩
    · rintro ⟨j, hj | ⟨rfl, -⟩, hname⟩
      · have hold := (hb.byName name' k).mpr ⟨j, hj, hname⟩
        rw [hnew] at hold
        cases hold
      · rfl
  · rw [Table.get?_insert_of_ne _ _ heq, hb.byName]
    constructor
    · rintro ⟨j, hj, hname⟩
      exact ⟨j, .inl hj, hname⟩
    · rintro ⟨j, hj | ⟨-, rfl⟩, hname⟩
      · exact ⟨j, hj, hname⟩
      · exact absurd (hname.symm.trans hi) heq

theorem tabled_of_addInstruction (hb : b.body.Tabled)
    (h : b.addInstruction id name kind result = .ok b') : b'.body.Tabled := by
  obtain ⟨hnew, block, hblock, rfl⟩ := addInstruction_eq_ok h
  refine ⟨fun k i hi => ?_, byName_of_addInstruction hb hnew rfl, fun k c hc => ?_, fun c hc => ?_⟩
  · rcases getElem?_concat_eq_some.mp hi with hi | ⟨rfl, rfl⟩
    · exact hb.position k i hi
    · rfl
  · dsimp only
    rw [List.filter_append, List.map_append]
    rcases getElem?_set_eq_some hc with ⟨rfl, rfl⟩ | ⟨hne, hc⟩
    · rw [← hb.positions id block hblock]
      simp [upcoming]
    · rw [← hb.positions k c hc]
      simp [upcoming, hne]
  · rcases List.mem_or_eq_of_mem_set hc with hc | rfl
    · exact hb.handlers c hc
    · exact hb.handlers block (List.mem_of_getElem? hblock)

/-- A new block has no instructions yet, since all of them belong to blocks that were there. -/
theorem tabled_of_addBlock (hs : b.body.Sound) (hb : b.body.Tabled) (name : String) :
    (b.addBlock name).body.Tabled := by
  refine ⟨hb.position, hb.byName, fun k c hc => ?_, fun c hc => ?_⟩
  · rcases getElem?_concat_eq_some.mp hc with hc | ⟨rfl, rfl⟩
    · exact hb.positions k c hc
    · have hnone : b.body.instructions.filter (·.block == b.body.blocks.length) = [] := by
        rw [List.filter_eq_nil_iff]
        intro i hi
        have := hs.block i hi
        rw [beq_iff_eq]
        omega
      show [] = (b.body.instructions.filter _).map _
      rw [hnone]
      rfl
  · rcases List.mem_append.mp hc with hc | hc
    · exact hb.handlers c hc
    · rw [List.mem_singleton.mp hc]
      exact List.nodup_nil

theorem tabled_of_addHandler {exception : Ty} (hb : b.body.Tabled)
    (h : b.addHandler id exception = .ok b') : b'.body.Tabled := by
  obtain ⟨block, hblock, rfl⟩ := addHandler_eq_ok h
  refine ⟨hb.position, hb.byName, fun k c hc => ?_, fun c hc => ?_⟩
  · rcases getElem?_set_eq_some hc with ⟨rfl, rfl⟩ | ⟨-, hc⟩
    · exact hb.positions id block hblock
    · exact hb.positions k c hc
  · have hold := hb.handlers block (List.mem_of_getElem? hblock)
    rcases List.mem_or_eq_of_mem_set hc with hc | rfl
    · exact hb.handlers c hc
    · dsimp only
      split
      · exact hold
      · next hmissing =>
        rw [List.contains_iff_mem] at hmissing
        refine List.nodup_append.mpr ⟨hold, List.pairwise_singleton _ _, fun x hx y hy => ?_⟩
        rw [List.mem_singleton.mp hy]
        exact fun heq => hmissing (heq ▸ hx)

theorem Built.tabled (h : b.Built) : b.body.Tabled := by
  induction h with
  | new method source => exact tabled_new method source
  | source file _ ih => exact ih
  | atLine line _ ih => exact ih
  | addBlock name hb ih => exact tabled_of_addBlock hb.sound ih name
  | addHandler _ h ih => exact tabled_of_addHandler ih h
  | addInstruction _ h ih => exact tabled_of_addInstruction ih h
  | addValue _ h ih => exact tabled_of_addInstruction ih h

end Builder

theorem Built.tabled {b : Body} (h : b.Built) : b.Tabled := by
  obtain ⟨builder, hb, rfl⟩ := h
  exact hb.tabled

/-! ## Tables among each other -/

/-- The tables of the body agree with each other. -/
structure Consistent (b : Body) : Prop where
  names : (b.instructions.map Instruction.name).Nodup
  byName : ∀ (name : String) (k : Nat),
    b.byName.get? name = some k ↔ ∃ i, b.instructions[k]? = some i ∧ i.name = name
  placed : ∀ (k : Nat) (i : Instruction), b.instructions[k]? = some i →
    i.position = k ∧ i.block < b.blocks.length
  increasing : ∀ block ∈ b.blocks, block.positions.Pairwise (· < ·)
  /-- The blocks divide up the positions by the blocks of the instructions there. -/
  divided : ∀ (id : Nat) (block : Block), b.blocks[id]? = some block → ∀ k,
    k ∈ block.positions ↔ ∃ i, b.instructions[k]? = some i ∧ i.block = id
  handlers : ∀ block ∈ b.blocks, block.handlers.Nodup

namespace Tabled

variable {b : Body} {i : Instruction}

theorem getElem?_position (hb : b.Tabled) (hi : i ∈ b.instructions) :
    b.instructions[i.position]? = some i := by
  obtain ⟨k, hk⟩ := List.getElem?_of_mem hi
  rw [hb.position k i hk, hk]

/-- Only one position has the name. -/
theorem nodup_names (hb : b.Tabled) : (b.instructions.map Instruction.name).Nodup := by
  refine List.pairwise_map.mpr (List.pairwise_iff_getElem.mpr fun k l hk hl hlt hname => ?_)
  have hfirst := (hb.byName _ k).mpr ⟨_, List.getElem?_eq_getElem hk, hname⟩
  have hsecond := (hb.byName _ l).mpr ⟨_, List.getElem?_eq_getElem hl, rfl⟩
  rw [hfirst] at hsecond
  exact Nat.ne_of_lt hlt (Option.some.inj hsecond)

theorem map_position (hb : b.Tabled) :
    b.instructions.map Instruction.position = List.range b.instructions.length := by
  refine List.ext_getElem (by simp) fun k hk _ => ?_
  rw [List.length_map] at hk
  rw [List.getElem_map, List.getElem_range]
  exact hb.position k _ (List.getElem?_eq_getElem hk)

theorem increasing (hb : b.Tabled) {block : Block} (h : block ∈ b.blocks) :
    block.positions.Pairwise (· < ·) := by
  obtain ⟨id, hid⟩ := List.getElem?_of_mem h
  rw [hb.positions id block hid]
  refine List.Pairwise.sublist (List.filter_sublist.map _) ?_
  rw [hb.map_position]
  exact List.pairwise_lt_range

theorem mem_positions (hb : b.Tabled) {id : Nat} {block : Block}
    (h : b.blocks[id]? = some block) (k : Nat) :
    k ∈ block.positions ↔ ∃ i, b.instructions[k]? = some i ∧ i.block = id := by
  simp only [hb.positions id block h, List.mem_map, List.mem_filter, beq_iff_eq]
  constructor
  · rintro ⟨i, ⟨hi, hblock⟩, rfl⟩
    exact ⟨i, hb.getElem?_position hi, hblock⟩
  · rintro ⟨i, hi, hblock⟩
    exact ⟨i, ⟨List.mem_of_getElem? hi, hblock⟩, hb.position k i hi⟩

theorem consistent (hb : b.Tabled) (hs : b.Sound) : b.Consistent where
  names := hb.nodup_names
  byName := hb.byName
  placed k i hi := ⟨hb.position k i hi, hs.block i (List.mem_of_getElem? hi)⟩
  increasing _ h := hb.increasing h
  divided _ _ h := hb.mem_positions h
  handlers := hb.handlers

/-- The block of an instruction holds the positions before it, its own, and those after it. -/
theorem positions_of_append (hb : b.Tabled) {block : Block} {front rest : List Instruction}
    (h : b.instructions = front ++ i :: rest) (hblock : b.blocks[i.block]? = some block) :
    block.positions = (front.filter (·.block == i.block)).map Instruction.position ++
      i.position :: (rest.filter (·.block == i.block)).map Instruction.position := by
  have hown : (i.block == i.block) = true := beq_self_eq_true _
  rw [hb.positions _ _ hblock, h, List.filter_append, List.filter_cons, if_pos hown,
    List.map_append, List.map_cons]

/-- The instruction after the given one is the next of the list with the same block. -/
theorem next?_eq_find? (hb : b.Tabled) (hs : b.Sound) {front rest : List Instruction}
    (h : b.instructions = front ++ i :: rest) :
    b.next? i = rest.find? (·.block == i.block) := by
  have hi : i ∈ b.instructions := by simp [h]
  have hblock := List.getElem?_eq_getElem (hs.block i hi)
  have hpositions := hb.positions_of_append h hblock
  have hnodup := (hb.increasing (List.getElem_mem (hs.block i hi))).imp Nat.ne_of_lt
  rw [hpositions] at hnodup
  have hfound := findIdx?_append_cons hnodup
  rw [← hpositions] at hfound
  have hnext : b.next? i =
      ((rest.find? (·.block == i.block)).map Instruction.position).bind (b.instructions[·]?) := by
    rw [next?, if_pos (hs.method i hi), block?, hblock, Option.bind_eq_bind, Option.bind_some,
      hfound, Option.bind_eq_bind, Option.bind_some, hpositions, getElem?_after, List.head?_map,
      List.head?_filter]
  rw [hnext]
  cases hj : rest.find? (·.block == i.block) with
  | none => rfl
  | some j =>
    have hmem : j ∈ b.instructions := by simp [h, List.mem_of_find?_eq_some hj]
    exact hb.getElem?_position hmem

/-- A name of the table leads to an instruction, and means the value that it produces. -/
theorem value_of_byName (hb : b.Tabled) {name : String} {k : Nat}
    (h : b.byName.get? name = some k) :
    ∃ i, b.instructions[k]? = some i ∧
      (name ≠ "this" → argumentIndex? name = none →
        b.value name = b.orUnknown name i.result) := by
  obtain ⟨i, hi, -⟩ := (hb.byName name k).mp h
  refine ⟨i, hi, fun hthis hargument => ?_⟩
  rw [value, if_neg hthis]
  simp only [hargument, h, hi, Option.bind_some]

end Tabled

/-! ## Steps that may fail -/

namespace Builder

/-- A step in the making of a body. -/
inductive Step where
  | block (name : String)
  | handler (id : Nat) (exception : Ty)
  | line (line : UInt32)
  | value (id : Nat) (name : String) (kind : InstKind) (ty : Ty)
  | instruction (id : Nat) (name : String) (kind : InstKind)

def step (b : Builder) : Step → Result Builder
  | .block name => .ok (b.addBlock name)
  | .handler id exception => b.addHandler id exception
  | .line line => .ok (b.atLine line)
  | .value id name kind ty => b.addValue id name kind ty
  | .instruction id name kind => b.addInstruction id name kind none

/-- The builder after some steps; one that fails leaves it as it was. -/
def perform (b : Builder) (steps : List Step) : Builder :=
  steps.foldl (fun b s => (b.step s).toOption.getD b) b

theorem Built.step {b b' : Builder} {s : Step} (hb : b.Built) (h : b.step s = .ok b') :
    b'.Built := by
  cases s with
  | block name => cases h; exact .addBlock name hb
  | handler id exception => exact .addHandler hb h
  | line line => cases h; exact .atLine line hb
  | value id name kind ty => exact .addValue hb h
  | instruction id name kind => exact .addInstruction hb h

theorem Built.perform {b : Builder} (hb : b.Built) (steps : List Step) :
    (b.perform steps).Built := by
  induction steps generalizing b with
  | nil => exact hb
  | cons s steps ih => exact ih (hb.getD fun _ h => hb.step h)

/-- A step adds instructions only behind those that are there. -/
private theorem instructions_step {b b' : Builder} {s : Step} (h : b.step s = .ok b') :
    b.body.instructions <+: b'.body.instructions := by
  cases s with
  | block name => cases h; exact List.prefix_refl _
  | line line => cases h; exact List.prefix_refl _
  | handler id exception => exact (addHandler_ok h).2.1 ▸ List.prefix_refl _
  | value id name kind ty =>
    obtain ⟨-, block, -, rfl⟩ := addInstruction_eq_ok h
    exact List.prefix_append _ _
  | instruction id name kind =>
    obtain ⟨-, block, -, rfl⟩ := addInstruction_eq_ok h
    exact List.prefix_append _ _

private theorem instructions_perform (b : Builder) (steps : List Step) :
    b.body.instructions <+: (b.perform steps).body.instructions := by
  induction steps generalizing b with
  | nil => exact List.prefix_refl _
  | cons s steps ih =>
    have hstep : b.body.instructions <+: ((b.step s).toOption.getD b).body.instructions := by
      cases h : b.step s with
      | ok b' => exact instructions_step h
      | error cause => exact List.prefix_refl _
    exact hstep.trans (ih _)

private theorem perform_append (b : Builder) (steps more : List Step) :
    b.perform (steps ++ more) = (b.perform steps).perform more := List.foldl_append

/-- Whatever steps are performed, the tables of the body agree, and later steps only add behind the
instructions that are there. Hence a name that is looked up leads to an instruction, and the
instruction after a given one is the next that was added to the same block, if there is one. -/
theorem tables_agree (method : Method) (source : Option String) (steps : List Step) :
    let b := ((new method source).perform steps).body
    b.Consistent ∧
      (∀ more, b.instructions <+:
        ((new method source).perform (steps ++ more)).body.instructions) ∧
      (∀ name k, b.byName.get? name = some k → ∃ i, b.instructions[k]? = some i ∧
        (name ≠ "this" → argumentIndex? name = none →
          b.value name = b.orUnknown name i.result)) ∧
      ∀ front i rest, b.instructions = front ++ i :: rest →
        b.next? i = rest.find? (·.block == i.block) := by
  intro b
  have hbuilt : b.Built := ⟨_, Built.perform (.new method source) steps, rfl⟩
  have htabled := hbuilt.tabled
  have hsound := hbuilt.sound
  refine ⟨htabled.consistent hsound, ?_, ?_, ?_⟩
  · intro more
    rw [perform_append]
    exact instructions_perform _ more
  · intro name k h
    exact htabled.value_of_byName h
  · intro front i rest h
    exact htabled.next?_eq_find? hsound h

/-- Instructions of two blocks in turn, among them a handler for no block and a name that is taken:
what comes after the call is the jump, and nothing comes after the return. -/
example :
    let b := ((new (.new "app/Main" "run" ⟨[], .void⟩ 0) none).perform
      [.block "entry", .block "exit", .handler 7 .int, .value 0 "%a" .call .int,
        .instruction 1 "ret" .ret, .value 1 "%a" .call .int, .instruction 0 "go" .jump]).body
    ((b.instruction? "%a").bind b.next?).map Instruction.name = some "go" ∧
      ((b.instruction? "ret").bind b.next?).map Instruction.name = none := by
  decide

end Builder

end Concolic.Body
