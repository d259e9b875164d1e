import Colloquy.Instruction.Codec
import Colloquy.Primitive

/-!
# Compiled blocks

The compiled form of a method, a main body or a block literal.  The blocks nested in a method, at
any depth, stand in one table of the method; a `block` instruction anywhere in the method names an
entry of it.

Main statement: `Block.listing` is `Block.line` at each offset that reading the code from its start
comes to.
-/

namespace Colloquy

/-- Code with the strings that it refers to. -/
structure Block where
  /-- The selector, or `selector-blockN`. -/
  name : String
  /-- The name with that of the enclosing scope in front. -/
  qualified : String
  nargs : Nat := 0
  /-- Locals beside the arguments. -/
  nlocals : Nat := 0
  bytecode : Bytes := #[]
  literals : Array String := #[]
  blocks : Array Block := #[]
  primitive : Option Primitive := none
  classSide : Bool := false
deriving Inhabited

namespace Block

/-- The number of slots in a frame of this code. -/
def frameSize (b : Block) : Nat := b.nargs + b.nlocals

/-- The literal with a given number. -/
def literal? (b : Block) (i : UInt16) : Option String := b.literals[i.toNat]?

/-- How a listing writes a literal: in quotes, or by number if there is none. -/
def entry (b : Block) (i : UInt16) : String :=
  match b.literal? i with
  | some s => Text.quote s
  | none => Instruction.numbered i

/-- One instruction with its literals spelled out. -/
def describe (b : Block) (i : Instruction) : String := i.describe b.entry

/-- The offset in front of a line of a listing. -/
def margin (ip : Nat) : String := Text.zeroPadded ip 4 ++ ":  "

/-- The line of a listing for the instruction at one offset. -/
def line (b : Block) (ip : Nat) : String :=
  margin ip ++
    match Instruction.decodeAt b.bytecode ip with
    | .ok (some (i, _)) => b.describe i
    | .ok none => "<end>"
    | .error e => "<" ++ e.message ++ ">"

/-- All instructions, one to a line, and the error that stops reading if there is one. -/
def listing (b : Block) : String :=
  let found := Instruction.decodeFrom b.bytecode 0
  let lines := found.items.map fun (ip, i) => margin ip ++ b.describe i ++ "\n"
  let last :=
    match found.error with
    | some e => margin found.stop ++ "<" ++ e.message ++ ">\n"
    | none => ""
  String.join lines ++ last

/-- Names, counts, literals and code. -/
def header (b : Block) : String :=
  "name: " ++ b.name ++ "\nqualifiedName: " ++ b.qualified ++ "\nnargs: " ++ b.nargs.repr
    ++ "\nnlocals: " ++ b.nlocals.repr
    ++ "\nliterals: " ++ ",".intercalate (b.literals.toList.map Text.quote) ++ "\n"
    ++ (match b.primitive with
        | some p => "primitive: " ++ p.tag ++ "\n"
        | none => "")
    ++ b.listing

mutual

/-- The whole block as text, with its nested blocks moved right below it. -/
def text : Block → String
  | b@⟨_, _, _, _, _, _, ⟨blocks⟩, _, _⟩ =>
    b.header ++
      match blocks with
      | [] => ""
      | _ :: _ => "blocks:\n" ++ Text.indent ("\n".intercalate (texts blocks))

/-- The text of each block. -/
def texts : List Block → List String
  | [] => []
  | b :: rest => b.text :: texts rest

end

mutual

/-- The qualified names of a block and of all blocks nested in it, outer ones first. -/
def names : Block → List String
  | ⟨_, qualified, _, _, _, _, ⟨blocks⟩, _, _⟩ => qualified :: namesAll blocks

/-- The names of each block in turn. -/
def namesAll : List Block → List String
  | [] => []
  | b :: rest => b.names ++ namesAll rest

end

end Block

end Colloquy
