import TapeLang.Program.Basic
import TapeLang.Transfer

/-!
# The interpreter

Runs the flat instruction list as it is, without a table of matching brackets. It keeps the indices
of the loops it is in. A loop met with a zero cell is skipped: `skip` is then its depth, and nothing
but brackets is looked at until its end. The end of a running loop with a nonzero cell continues
right behind its start.

The machine asks once whether the input can be looked at, and flushes the output at the end.
-/

namespace TapeLang.Interpreter

inductive Phase where
  | opening
  | running
  /-- In the middle of a read or a write. -/
  | transferring (stage : Transfer)
  | closed (verdict : Verdict)
deriving DecidableEq

structure State where
  phase : Phase
  tape : Tape
  /-- The index of the current instruction. -/
  cursor : Nat
  /-- The indices of the loop starts around the cursor, innermost last. -/
  loops : Array Nat
  /-- The depth of the loop that is skipped, or 0. -/
  skip : Nat
  canPeek : Bool
deriving DecidableEq

def start (tape : Tape) : State := ⟨.opening, tape, 0, #[], 0, false⟩

namespace State

def close (s : State) (v : Verdict) : State := { s with phase := .closed v }

/-- On to the instruction at index `cursor`. -/
def goTo : State → Nat → State
  | ⟨phase, tape, _, loops, skip, canPeek⟩, cursor => ⟨phase, tape, cursor, loops, skip, canPeek⟩

/-- On to the next instruction. -/
def proceed (s : State) : State := s.goTo (s.cursor + 1)

/-- Change the tape by `f` and go on. -/
@[inline]
def onTape (f : Tape → Tape) : State → State
  | ⟨phase, tape, cursor, loops, skip, canPeek⟩ =>
    ⟨phase, f tape, cursor + 1, loops, skip, canPeek⟩

def move (s : State) (n : Nat) : State := s.onTape (·.advance n)

def add (s : State) (n : Nat) : State := s.onTape (·.add n.toUInt8)

def reset (s : State) : State := s.onTape (·.set 0)

def enterLoop (s : State) : State :=
  let depth := s.loops.size + 1
  let skip := if s.skip = 0 ∧ s.tape.get = 0 then depth else s.skip
  { s with loops := s.loops.push s.cursor, skip, cursor := s.cursor + 1 }

def leaveLoop (s : State) : State :=
  let skip := if s.skip = s.loops.size then 0 else s.skip
  { s with loops := s.loops.pop, skip, cursor := s.cursor + 1 }

/-- At a loop end: once more if the loop is running and the cell is not zero. -/
def closeLoop (s : State) : State :=
  if s.skip = 0 ∧ s.tape.get ≠ 0 then s.goTo (s.loops.back?.getD s.cursor + 1) else s.leaveLoop

/-- The effect of one operation. -/
def execute (s : State) (op : Op) : State :=
  match op with
  | .loopStart => s.enterLoop
  | .loopEnd => s.closeLoop
  | _ =>
    if s.skip ≠ 0 then s.proceed
    else
      match op with
      | .move n => s.move n
      | .add n => s.add n
      | .reset => s.reset
      | .read => { s with phase := .transferring .prompt }
      | .write => { s with phase := .transferring (.offer s.tape.get) }
      | .loopStart | .loopEnd => s

/-- Take in the reply to a stage of a transfer. -/
def afterTransfer (s : State) : Transfer.Next → State
  | .stage t => { s with phase := .transferring t }
  | .done (.received byte) =>
    { s with phase := .running, tape := s.tape.set byte, cursor := s.cursor + 1 }
  | .done .sent => { s with phase := .running, cursor := s.cursor + 1 }
  | .done (.failed e) => s.close (.failed e)

end State

/-- The list of loop indices, of eight bytes each, gets its full size at the start. This fails for
an enormous depth. -/
def opened (program : Program) (s : State) (canPeek : Bool) : State :=
  if sizeLimit < 8 * program.maxDepth then s.close (.crashed .capacityOverflow)
  else { s with phase := .running, canPeek }

def finished (s : State) : Except Failure Unit → State
  | .ok () => s.close .finished
  | .error f => s.close (.failed (.stream f))

@[inline]
def step (program : Program) (s : State) : Action byteStream State Ending :=
  match s.phase with
  | .opening =>
    if s.tape.length ≠ program.tapeLength then
      .halt ⟨.failed (.tapeMismatch program.tapeLength s.tape.length), s.tape⟩
    else .ask .canPeek (opened program s)
  | .running =>
    match program.instructions[s.cursor]? with
    | some i => .next (s.execute i.op)
    | none => .ask .flush (finished s)
  | .transferring stage =>
    .ask stage.request fun reply =>
      s.afterTransfer (stage.resume s.canPeek (program.position? s.cursor) reply)
  | .closed verdict => .halt ⟨verdict, s.tape⟩

end TapeLang.Interpreter
