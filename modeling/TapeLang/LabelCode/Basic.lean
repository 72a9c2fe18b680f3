import TapeLang.BuildError
import TapeLang.Program.Basic

/-!
# Label code

Straight code with labels, between programs and machine code. A loop is a label at its top, a branch
to a label behind its bottom if the cell is zero, and a jump back:

    L0: jz L1 … jmp L0 L1:

* `Wrap.ofTapeLength`: how the pointer comes back into range after a move.
* `lower`: the label code of an instruction list, or the operations up to its fault.
-/

namespace TapeLang

/-- A mask does for a power of two; else the length is subtracted once if it is reached. -/
inductive Wrap where
  | mask (bits : UInt32)
  | length (cells : UInt32)
deriving DecidableEq

/-- Pointer arithmetic has 32-bit signed immediates. -/
def maxTapeLength : Nat := 0x7FFFFFFF

def Wrap.ofTapeLength (length : Nat) : Except BuildError Wrap :=
  if maxTapeLength < length then .error (.tapeTooLarge length)
  else if 1 <<< length.log2 = length then .ok (.mask (length - 1).toUInt32)
  else .ok (.length length.toUInt32)

abbrev Label := Nat

/-- `read` and `write` carry the index of their instruction. -/
inductive Operation where
  | prologue
  | epilogue
  | bind (l : Label)
  | jump (l : Label)
  | branchIfZero (l : Label)
  | move (count : UInt32) (wrap : Wrap)
  | add (amount : UInt8)
  | reset
  | read (index : UInt32)
  | write (index : UInt32)
deriving DecidableEq

/-- The operations that lowering has made, and its error if it stopped there. -/
structure Lowering where
  operations : Array Operation
  error : Option BuildError
deriving DecidableEq

namespace Lowering

/-- The labels of a loop that is still open. -/
structure Loop where
  top : Label
  behind : Label
deriving DecidableEq

structure State where
  operations : Array Operation
  /-- The next unused label. -/
  fresh : Label
  /-- Innermost first. -/
  loops : List Loop
deriving DecidableEq

def State.emit (s : State) (op : Operation) : State := { s with operations := s.operations.push op }

/-- One instruction. The end of a loop that was never opened adds nothing. -/
def State.step (wrap : Wrap) (s : State) (index : Nat) : Op → State
  | .move n => s.emit (.move n.toUInt32 wrap)
  | .add n => s.emit (.add n.toUInt8)
  | .reset => s.emit .reset
  | .read => s.emit (.read index.toUInt32)
  | .write => s.emit (.write index.toUInt32)
  | .loopStart =>
    let loop : Loop := ⟨s.fresh, s.fresh + 1⟩
    let s := (s.emit (.bind loop.top)).emit (.branchIfZero loop.behind)
    { s with fresh := s.fresh + 2, loops := loop :: s.loops }
  | .loopEnd =>
    match s.loops with
    | [] => s
    | loop :: outer => { (s.emit (.jump loop.top)).emit (.bind loop.behind) with loops := outer }

def start : State := ⟨#[.prologue], 0, []⟩

/-- The instructions from `index` on. -/
def steps (wrap : Wrap) (s : State) (index : Nat) : List Op → Lowering
  | [] =>
    if s.loops.isEmpty then ⟨s.operations.push .epilogue, none⟩
    else ⟨s.operations, some (.unbalancedLoops index)⟩
  | op :: rest =>
    if op = .loopEnd ∧ s.loops.isEmpty then ⟨s.operations, some (.unbalancedLoops index)⟩
    else steps wrap (s.step wrap index op) (index + 1) rest

/-- The operations if all went well. -/
def toExcept (l : Lowering) : Except BuildError (Array Operation) :=
  match l.error with
  | some e => .error e
  | none => .ok l.operations

end Lowering

/-- The most instructions whose indices fit in 32 bits. -/
def maxInstructions : Nat := 0xFFFFFFFF

/-- The label code of `ops` on a tape of `tapeLength` cells. -/
def lower (ops : List Op) (tapeLength : Nat) : Lowering :=
  match Wrap.ofTapeLength tapeLength with
  | .error e => ⟨#[], some e⟩
  | .ok wrap =>
    if maxInstructions < ops.length then ⟨#[], some (.programTooLarge ops.length)⟩
    else Lowering.steps wrap Lowering.start 0 ops

def Program.lower (p : Program) : Lowering := TapeLang.lower p.ops p.tapeLength

end TapeLang
