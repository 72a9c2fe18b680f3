import TapeLang.Failure
import TapeLang.Position
import TapeLang.Tape

/-!
# How a run ends

A run ends well, with an error of the program's surroundings, or in a crash. Its tape is kept in
every case.
-/

namespace TapeLang

/-- Why a run stops early. -/
inductive RunError where
  /-- A read at `position` found the end of the input. -/
  | inputExhausted (position : Option Position)
  | tapeMismatch (expected actual : Nat)
  | stream (failure : Failure)
deriving DecidableEq

def RunError.message : RunError → String
  | .inputExhausted position =>
    let place := position.elim "unknown position" Position.text
    s!"Input is not enough to feed the program (read at {place})"
  | .tapeMismatch expected actual =>
    s!"Tape has {actual} cells but the program was built for {expected}"
  | .stream failure => s!"I/O error: {failure.text}"

/-- The most bytes that anything can be made of. -/
def sizeLimit : Nat := 0x7FFFFFFFFFFFFFFF

/-- What no program text and no stream is to blame for. -/
inductive Crash where
  | emptyTape
  /-- Something is to be larger than the `sizeLimit`. -/
  | capacityOverflow
  /-- No instruction can be read at this address. -/
  | badInstruction (address : UInt64)
  /-- No data may be read or written at this address. -/
  | badAccess (address : UInt64)
  | badSystemCall (number : UInt64)
deriving DecidableEq

def Crash.message : Crash → String
  | .emptyTape => "a tape needs at least one cell"
  | .capacityOverflow => "capacity overflow"
  | .badInstruction address => s!"no instruction at address {address}"
  | .badAccess address => s!"no access to address {address}"
  | .badSystemCall number => s!"unknown system call {number}"

inductive Verdict where
  | finished
  | failed (e : RunError)
  | crashed (c : Crash)
deriving DecidableEq

structure Ending where
  verdict : Verdict
  tape : Tape
deriving DecidableEq

/-- A blank tape of any length from 1 up to the `sizeLimit`. -/
def Tape.create (length : Nat) : Except Crash Tape :=
  if h : 0 < length then
    if length ≤ sizeLimit then .ok (.blank length h) else .error .capacityOverflow
  else .error .emptyTape

end TapeLang
