import TapeLang.Position

/-!
# Programs

A program is a flat list of instructions for a tape of a fixed length. Loops are bracketed by
`loopStart` and `loopEnd`, not nested.
-/

namespace TapeLang

/-- Cells are bytes, so additions count modulo 256. -/
def cellModulus : Nat := 256

/-- `move n` goes `n` cells forward on the circular tape, `add n` adds `n` to the current cell, and
`reset` clears it. -/
inductive Op where
  | move (count : Nat)
  | add (count : Nat)
  | reset
  | loopStart
  | loopEnd
  | read
  | write
deriving DecidableEq

namespace Op

/-- How often the basic step is repeated: the count of a move or an addition, else 1. -/
def count : Op → Nat
  | .move n => n
  | .add n => n
  | _ => 1

def isMove : Op → Bool
  | .move _ => true
  | _ => false

def isAdd : Op → Bool
  | .add _ => true
  | _ => false

/-- A move or an addition that does nothing. -/
def isIdle (op : Op) : Bool := op.count == 0

/-- A single step up or down: the only body that makes a loop clear its cell. -/
def isUnitAdd (op : Op) : Bool := op == .add 1 || op == .add (cellModulus - 1)

end Op

/-- An operation and the source text it came from, if known. -/
structure Instruction where
  op : Op
  position : Option Position
deriving DecidableEq

structure Program where
  instructions : Array Instruction
  tapeLength : Nat
  /-- Loops nest less deep than this. -/
  maxDepth : Nat
  tapeLength_pos : 0 < tapeLength

instance : DecidableEq Program := fun p q =>
  decidable_of_iff (p.instructions = q.instructions ∧ p.tapeLength = q.tapeLength ∧
    p.maxDepth = q.maxDepth) (by cases p; cases q; simp)

namespace Program

def size (p : Program) : Nat := p.instructions.size

def isEmpty (p : Program) : Bool := p.instructions.isEmpty

def position? (p : Program) (index : Nat) : Option Position :=
  p.instructions[index]?.bind (·.position)

/-- The operations alone, without positions. -/
def ops (p : Program) : List Op := p.instructions.toList.map (·.op)

end Program

end TapeLang
