import Concolic.Program
import Concolic.Proofs.Table

/-!
# Programs that were built

Bodies and programs only come about by building: from nothing, one addition after the other. The
trace is read against such a program.

* `Body.Builder.Built`, `Program.Built`: what can be built. A step of a builder that fails leaves
  the builder as it was, so only the successful ones count.
* `Body.Sound`: every instruction of a body belongs to the method of the body and to one of its
  blocks.
* `Body.Built.result`: what an instruction of a built body produces has the name of the instruction.
* `Program.Sound`: every body is sound and found under the key of its own method.
* `Program.Built.sound`: what was built is sound. Hence the method of an instruction that was found
  in a body leads back to that body, and to the block of the instruction (`Program.Sound.hosts`).
* `Program.Built.registered`, `Program.Built.method?_of_finds`: the key of every body is registered,
  and a method that is found for a spelling is found again by its key, if it is registered at all.
-/

namespace Concolic

/-! ## Bodies -/

namespace Body

/-- The builders that the operations of `Builder` make. -/
inductive Builder.Built : Builder → Prop
  | new (method : Method) (source : Option String) : Built (.new method source)
  | source {b : Builder} (file : String) : Built b → Built { b with source := some file }
  | atLine {b : Builder} (line : UInt32) : Built b → Built (b.atLine line)
  | addBlock {b : Builder} (name : String) : Built b → Built (b.addBlock name)
  | addHandler {b b' : Builder} {id : Nat} {exception : Ty} :
      Built b → b.addHandler id exception = .ok b' → Built b'
  | addInstruction {b b' : Builder} {id : Nat} {name : String} {kind : InstKind} :
      Built b → b.addInstruction id name kind none = .ok b' → Built b'
  | addValue {b b' : Builder} {id : Nat} {name : String} {kind : InstKind} {ty : Ty} :
      Built b → b.addValue id name kind ty = .ok b' → Built b'

/-- The body is one that was built. -/
def Built (b : Body) : Prop := ∃ builder : Builder, builder.Built ∧ builder.body = b

/-- Every instruction belongs to the method and to a block of the body. -/
structure Sound (b : Body) : Prop where
  method : ∀ i ∈ b.instructions, i.method = b.method
  block : ∀ i ∈ b.instructions, i.block < b.blocks.length

namespace Builder

variable {b b' : Builder}

/-- The instruction that is added next. -/
def upcoming (b : Builder) (id : Nat) (name : String) (kind : InstKind) (result : Option Value) :
    Instruction :=
  { name, kind, method := b.body.method, block := id, position := b.body.instructions.length
    location := ⟨b.source, b.line⟩, result }

/-- What a new handler does: a block that is there gets it unless it has it. -/
theorem addHandler_eq_ok {id : Nat} {exception : Ty} (h : b.addHandler id exception = .ok b') :
    ∃ block, b.body.blocks[id]? = some block ∧
      b' = { b with body := { b.body with blocks := b.body.blocks.set id { block with
        handlers := if block.handlers.contains exception then block.handlers
          else block.handlers ++ [exception] } } } := by
  unfold addHandler at h
  split at h
  · cases h
  · next block hblock =>
    cases h
    exact ⟨block, hblock, rfl⟩

/-- What a new instruction does: its name is new, and it comes last, in its block as well. -/
theorem addInstruction_eq_ok {id : Nat} {name : String} {kind : InstKind} {result : Option Value}
    (h : b.addInstruction id name kind result = .ok b') :
    b.body.byName.get? name = none ∧ ∃ block, b.body.blocks[id]? = some block ∧
      b' = { b with
        line := b.line + 1
        body := { b.body with
          instructions := b.body.instructions ++ [b.upcoming id name kind result]
          byName := b.body.byName.insert name b.body.instructions.length
          blocks := b.body.blocks.set id
            { block with positions := block.positions ++ [b.body.instructions.length] } } } := by
  unfold addInstruction at h
  split at h
  · cases h
  · next hnew =>
    split at h
    · cases h
    · next block hblock =>
      cases h
      rw [Table.contains_eq_isSome_get?] at hnew
      exact ⟨by simpa using hnew, block, hblock, rfl⟩

/-- A new handler changes no instruction and no number of a block. -/
theorem addHandler_ok {id : Nat} {exception : Ty} (h : b.addHandler id exception = .ok b') :
    b'.body.method = b.body.method ∧ b'.body.instructions = b.body.instructions ∧
      b'.body.blocks.length = b.body.blocks.length := by
  obtain ⟨block, -, rfl⟩ := addHandler_eq_ok h
  exact ⟨rfl, rfl, List.length_set⟩

/-- A new instruction comes last, with the method of the body and a block that is there. -/
theorem addInstruction_ok {id : Nat} {name : String} {kind : InstKind} {result : Option Value}
    (h : b.addInstruction id name kind result = .ok b') :
    b'.body.method = b.body.method ∧ b'.body.blocks.length = b.body.blocks.length ∧
      ∃ i : Instruction, b'.body.instructions = b.body.instructions ++ [i] ∧
        i.method = b.body.method ∧ i.block < b.body.blocks.length := by
  obtain ⟨-, block, hblock, rfl⟩ := addInstruction_eq_ok h
  obtain ⟨hlt, -⟩ := List.getElem?_eq_some_iff.mp hblock
  exact ⟨rfl, List.length_set, _, rfl, rfl, hlt⟩

theorem sound_of_addInstruction {id : Nat} {name : String} {kind : InstKind}
    {result : Option Value} (hb : b.body.Sound)
    (h : b.addInstruction id name kind result = .ok b') : b'.body.Sound := by
  obtain ⟨hm, hl, i, hi, him, hib⟩ := addInstruction_ok h
  refine ⟨fun j hj => ?_, fun j hj => ?_⟩
  · rw [hi, List.mem_append, List.mem_singleton] at hj
    rw [hm]
    rcases hj with hj | rfl
    · exact hb.method j hj
    · exact him
  · rw [hi, List.mem_append, List.mem_singleton] at hj
    rw [hl]
    rcases hj with hj | rfl
    · exact hb.block j hj
    · exact hib

theorem Built.sound (h : b.Built) : b.body.Sound := by
  induction h with
  | new method source =>
    exact ⟨fun i hi => absurd hi List.not_mem_nil, fun i hi => absurd hi List.not_mem_nil⟩
  | source file _ ih => exact ih
  | atLine line _ ih => exact ih
  | addBlock name _ ih =>
    refine ⟨ih.method, fun i hi => ?_⟩
    have := ih.block i hi
    show i.block < (_ ++ [_]).length
    rw [List.length_append]
    omega
  | addHandler _ h ih =>
    obtain ⟨hm, hi, hl⟩ := addHandler_ok h
    refine ⟨?_, ?_⟩
    · rw [hi, hm]; exact ih.method
    · rw [hi, hl]; exact ih.block
  | addInstruction _ h ih => exact sound_of_addInstruction ih h
  | addValue _ h ih => exact sound_of_addInstruction ih h

/-- A new instruction has the name and the result that it was added with. -/
theorem mem_of_addInstruction {id : Nat} {name : String} {kind : InstKind} {result : Option Value}
    {i : Instruction} (h : b.addInstruction id name kind result = .ok b')
    (hi : i ∈ b'.body.instructions) :
    i ∈ b.body.instructions ∨ i.name = name ∧ i.result = result := by
  obtain ⟨-, block, -, rfl⟩ := addInstruction_eq_ok h
  rcases List.mem_append.mp hi with hi | hi
  · exact .inl hi
  · obtain rfl := List.mem_singleton.mp hi
    exact .inr ⟨rfl, rfl⟩

theorem Built.result (h : b.Built) {i : Instruction} (hi : i ∈ b.body.instructions) {v : Value}
    (hv : i.result = some v) : ∃ ty, v = .result i.name ty := by
  induction h with
  | new => cases hi
  | source _ _ ih | atLine _ _ ih | addBlock _ _ ih => exact ih hi
  | addHandler _ h ih =>
    obtain ⟨-, hinstructions, -⟩ := addHandler_ok h
    exact ih (hinstructions ▸ hi)
  | addInstruction _ h ih =>
    rcases mem_of_addInstruction h hi with hi | ⟨-, hresult⟩
    · exact ih hi
    · rw [hresult] at hv
      cases hv
  | addValue _ h ih =>
    rcases mem_of_addInstruction h hi with hi | ⟨hname, hresult⟩
    · exact ih hi
    · rw [hresult] at hv
      cases hv
      exact ⟨_, by rw [hname]⟩

/-- A step that fails leaves a builder that was built. -/
theorem Built.getD {r : Result Builder} (hb : b.Built)
    (h : ∀ b', r = .ok b' → b'.Built) : (r.toOption.getD b).Built := by
  cases r with
  | ok b' => exact h b' rfl
  | error => exact hb

end Builder

theorem Built.sound {b : Body} (h : b.Built) : b.Sound := by
  obtain ⟨builder, hb, rfl⟩ := h
  exact hb.sound

/-- The value that an instruction produces is the result of its name. -/
theorem Built.result {b : Body} (h : b.Built) {i : Instruction} (hi : i ∈ b.instructions)
    {v : Value} (hv : i.result = some v) : ∃ ty, v = .result i.name ty := by
  obtain ⟨builder, hb, rfl⟩ := h
  exact hb.result hi hv

theorem mem_of_instruction? {b : Body} {name : String} {i : Instruction}
    (h : b.instruction? name = some i) : i ∈ b.instructions := by
  obtain ⟨k, -, hk⟩ := Option.bind_eq_some_iff.mp h
  exact List.mem_of_getElem? hk

theorem instruction_eq_ok {b : Body} {name : String} {i : Instruction}
    (h : b.instruction name = .ok i) : b.instruction? name = some i := by
  unfold instruction orUnknown at h
  split at h
  · next j hj => cases h; exact hj
  · cases h

end Body

/-! ## Programs -/

namespace Program

/-- The programs that the operations of `Program` make from built bodies. -/
inductive Built : Program → Prop
  | empty : Built .empty
  | addClass {p : Program} (c : ClassDecl) : Built p → Built (p.addClass c)
  | addMethod {p : Program} (m : Method) : Built p → Built (p.addMethod m)
  | addBody {p : Program} {b : Body} : Built p → b.Built → Built (p.addBody b)

theorem Built.body {p : Program} (h : p.Built) {k : String} {b : Body}
    (hb : p.bodies.get? k = some b) : b.Built := by
  induction h with
  | empty => cases hb
  | addClass _ _ ih | addMethod _ _ ih => exact ih hb
  | addBody _ hbuilt ih =>
    rcases Table.get?_insert_eq_some hb with ⟨-, rfl⟩ | ⟨-, hb⟩
    · exact hbuilt
    · exact ih hb

/-- Every body is sound and stands under the key of its method. -/
structure Sound (p : Program) : Prop where
  key : ∀ k b, p.bodies.get? k = some b → b.method.key = k
  body : ∀ k b, p.bodies.get? k = some b → b.Sound

/-- A body stands under the key of its method. -/
theorem Built.key {p : Program} (h : p.Built) {k : String} {b : Body}
    (hb : p.bodies.get? k = some b) : b.method.key = k := by
  induction h with
  | empty => cases hb
  | addClass _ _ ih | addMethod _ _ ih => exact ih hb
  | addBody _ _ ih =>
    rcases Table.get?_insert_eq_some hb with ⟨rfl, rfl⟩ | ⟨-, hb⟩
    · rfl
    · exact ih hb

theorem Built.sound {p : Program} (h : p.Built) : p.Sound :=
  ⟨fun _ _ hb => h.key hb, fun _ _ hb => (h.body hb).sound⟩

/-- The method of the instruction has a body with the block of the instruction. -/
def Hosts (p : Program) (i : Instruction) : Prop :=
  ∃ b block, p.body i.method = .ok b ∧ b.block? i.block = some block

theorem body_eq_ok {p : Program} {m : Method} {b : Body} (h : p.body m = .ok b) :
    p.bodies.get? m.key = some b := by
  unfold body at h
  split at h
  · next b' hb => cases h; exact hb
  · cases h

/-- The method of an instruction leads back to the body that holds it. -/
theorem Sound.body_of_mem {p : Program} (hp : p.Sound) {m : Method} {b : Body} {i : Instruction}
    (hb : p.body m = .ok b) (hi : i ∈ b.instructions) : p.body i.method = .ok b := by
  have hget := body_eq_ok hb
  rw [Program.body, (hp.body _ _ hget).method i hi, hp.key _ _ hget, hget]

/-- An instruction that was found by its name leads back to the body it was found in. -/
theorem Sound.hosts {p : Program} (hp : p.Sound) {m : Method} {b : Body} {name : String}
    {i : Instruction} (hb : p.body m = .ok b) (hi : b.instruction name = .ok i) : p.Hosts i := by
  have hmem := Body.mem_of_instruction? (Body.instruction_eq_ok hi)
  have hblock := (hp.body _ _ (body_eq_ok hb)).block i hmem
  exact ⟨b, b.blocks[i.block], hp.body_of_mem hb hmem, List.getElem?_eq_getElem hblock⟩

/-! ### Methods -/

variable {p : Program} {m : Method} {k : String}

/-- The method is what the program has for a spelling. -/
def Finds (p : Program) (m : Method) : Prop :=
  ∃ owner name args ret, p.method owner name args ret = .ok m

/-- A method is registered under its key. -/
theorem Built.key_of_method? (h : p.Built) (hm : p.method? k = some m) : m.key = k := by
  induction h with
  | empty => cases hm
  | addClass _ _ ih => exact ih hm
  | addMethod m' _ ih =>
    rcases Table.get?_insert_eq_some hm with ⟨rfl, rfl⟩ | ⟨-, hm⟩
    · rfl
    · exact ih hm
  | addBody _ _ ih =>
    rcases Table.get?_insertNew_eq_some hm with hm | ⟨hk, rfl⟩
    · exact ih hm
    · exact eq_of_beq hk

/-- The key of a body is registered. -/
theorem Built.registered (h : p.Built) {b : Body} (hb : p.bodies.get? k = some b) :
    ∃ m, p.method? k = some m := by
  induction h with
  | empty => cases hb
  | addClass _ _ ih => exact ih hb
  | addMethod m' _ ih =>
    obtain ⟨m, hm⟩ := ih hb
    by_cases hk : k = m'.key
    · subst hk
      exact ⟨m', Table.get?_insert_self _ _ _⟩
    · exact ⟨m, (Table.get?_insert_of_ne _ _ hk).trans hm⟩
  | addBody _ _ ih =>
    rcases Table.get?_insert_eq_some hb with ⟨rfl, rfl⟩ | ⟨-, hb⟩
    · exact ⟨_, Table.get?_insertNew_self _ _ _⟩
    · obtain ⟨m, hm⟩ := ih hb
      exact ⟨m, (Table.within_insertNew _ _ _).value _ _ hm⟩

theorem body_of_key {m m' : Method} (h : m.key = m'.key) : p.body m = p.body m' := by
  unfold body
  rw [h]

/-- What the program finds for a spelling is what it has under the key, or is not registered. -/
theorem Built.method?_of_finds (hp : p.Built) (h : p.Finds m) : (p.method? m.key).getD m = m := by
  obtain ⟨owner, name, args, ret, h⟩ := h
  unfold method at h
  cases hsignature : Signature.parse args ret with
  | error e => rw [hsignature] at h; cases h
  | ok signature =>
    rw [hsignature] at h
    cases h
    cases hget : p.method? (Method.new owner name signature 0).key with
    | none =>
      rw [Option.getD_none, hget]
      rfl
    | some m =>
      rw [Option.getD_some, hp.key_of_method? hget, hget]
      rfl
end Program

end Concolic
