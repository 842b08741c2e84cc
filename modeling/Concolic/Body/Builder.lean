import Concolic.Body.Basic

/-!
# Building bodies

A body is built by adding blocks, handlers and instructions. Each instruction gets the current line
of the source file, and the line then moves on by one. A step that fails leaves the builder as it
was.
-/

namespace Concolic.Body

/-- A body under construction. -/
structure Builder where
  body : Body
  source : Option String
  line : UInt32

namespace Builder

def new (method : Method) (source : Option String) : Builder where
  body := { method, blocks := [], instructions := [], byName := ∅, blockNames := ∅ }
  source
  line := 1

variable (b : Builder)

/-- The next instruction is on the given line. -/
def atLine (line : UInt32) : Builder := { b with line }

/-- Adds an empty block; a later block takes over the name of an earlier one. -/
def addBlock (name : String) : Builder :=
  let id := b.body.blocks.length
  { b with body := { b.body with
      blocks := b.body.blocks ++ [{ id, name, handlers := [], positions := [] }]
      blockNames := b.body.blockNames.insert name id } }

/-- The failure for a block that was not added. -/
def unknownBlock {α : Type} (id : Nat) : Result α :=
  b.body.unknown ("block #" ++ toString id)

/-- Adds a handler to a block, unless the block has it. -/
def addHandler (id : Nat) (exception : Ty) : Result Builder :=
  match b.body.blocks[id]? with
  | none => b.unknownBlock id
  | some block =>
    let handlers :=
      if block.handlers.contains exception then block.handlers else block.handlers ++ [exception]
    .ok { b with body := { b.body with blocks := b.body.blocks.set id { block with handlers } } }

/-- Adds an instruction to a block, with the value it produces if there is one. -/
def addInstruction (id : Nat) (name : String) (kind : InstKind) (result : Option Value) :
    Result Builder :=
  if b.body.byName.contains name then
    malformed (.duplicateInstruction name b.body.method.key)
  else
    match b.body.blocks[id]? with
    | none => b.unknownBlock id
    | some block =>
      let position := b.body.instructions.length
      let instruction : Instruction :=
        { name, kind, method := b.body.method, block := id, position
          location := ⟨b.source, b.line⟩, result }
      .ok { b with
        line := b.line + 1
        body := { b.body with
          instructions := b.body.instructions ++ [instruction]
          byName := b.body.byName.insert name position
          blocks := b.body.blocks.set id
            { block with positions := block.positions ++ [position] } } }

/-- Adds an instruction that produces a value of its own name. -/
def addValue (id : Nat) (name : String) (kind : InstKind) (ty : Ty) : Result Builder :=
  b.addInstruction id name kind (some (.result name ty))

end Builder

end Concolic.Body
