import Concolic.Body.Instruction
import Concolic.Table

/-!
# Bodies of methods

A body holds the instructions of a method in blocks and resolves the names that a trace uses for
values, instructions and blocks.

A value is named `this`, `arg$n`, like the instruction that produces it, or by a literal; the first
that applies counts.
-/

namespace Concolic

structure Block where
  id : Nat
  name : String
  /-- The exception types that are handled around the block, without repetition. -/
  handlers : List Ty
  /-- The positions of the instructions of the block, in order. -/
  positions : List Nat

structure Body where
  method : Method
  blocks : List Block
  instructions : List Instruction
  /-- The position of each instruction by name. -/
  byName : Table String Nat
  /-- The number of each block by name; of blocks with one name the last. -/
  blockNames : Table String Nat

/-- Reads the number of an argument: digits with an optional plus, at most 64 bits. -/
def readIndex? (cs : List Char) : Option Nat :=
  let ds := match cs with
    | '+' :: ds => ds
    | ds => ds
  if ds.isEmpty || !ds.all Char.isDigit then none
  else
    let n := Fp.ofDigits ds
    if n < UInt64.size then some n else none

/-- The text after `arg$`. -/
def argumentIndex? (name : String) : Option (List Char) :=
  match name.toList with
  | 'a' :: 'r' :: 'g' :: '$' :: rest => some rest
  | _ => none

namespace Body

variable (b : Body)

/-- The failure for a name that means nothing in the body. -/
def unknown {α : Type} (name : String) : Result α := .error (.unknownName name b.method.key)

def orUnknown {α : Type} (name : String) : Option α → Result α
  | some a => .ok a
  | none => b.unknown name

def block? (id : Nat) : Option Block := b.blocks[id]?

/-- The number of the first block. -/
def entry : Nat := 0

/-- The instruction of a name. -/
def instruction? (name : String) : Option Instruction := do
  b.instructions[← b.byName.get? name]?

def instruction (name : String) : Result Instruction := b.orUnknown name (b.instruction? name)

def blockNamed (name : String) : Result Block :=
  b.orUnknown name ((b.blockNames.get? name).bind b.block?)

/-- The value of a name. -/
def value (name : String) : Result Value :=
  if name = "this" then b.orUnknown name (b.method.receiver?.map .receiver)
  else
    match argumentIndex? name with
    | some digits =>
      match readIndex? digits with
      | none => malformed (.invalidArgument name)
      | some i => b.orUnknown name (b.method.signature.args[i]?.map (.argument i ·))
    | none =>
      match b.byName.get? name with
      | some position => b.orUnknown name (b.instructions[position]?.bind (·.result))
      | none => b.orUnknown name ((Constant.parse? name).map .constant)

/-- The instruction after the given one in its block. -/
def next? (i : Instruction) : Option Instruction := do
  if i.method = b.method then
    let block ← b.block? i.block
    let k ← block.positions.findIdx? (· == i.position)
    b.instructions[← block.positions[k + 1]?]?
  else none

end Body

end Concolic
