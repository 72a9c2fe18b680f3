import TapeLang.Interpreter
import TapeLang.Program.Parser
import TapeLang.Routine

/-!
# Execution

A program is run by the interpreter or as a compiled routine. An `Engine` is a program made ready
for one of the two; `Engine.run` starts it on a tape beside a device.
-/

namespace TapeLang

inductive Mode where
  | interpreted
  | compiled
deriving DecidableEq

/-- What can go wrong between a source text and the end of its run. -/
inductive Error where
  | brackets (e : BracketError)
  | run (e : RunError)
  | build (e : BuildError)
deriving DecidableEq

def Error.message : Error → String
  | .brackets e => e.message
  | .run e => e.message
  | .build e => e.message

def Progress.result? {S R σ : Type} : Progress S R σ → Option (R × σ)
  | .halted result world => some (result, world)
  | .running _ _ => none

inductive Engine where
  | interpreter (p : Program)
  | routine (r : Routine)

namespace Engine

def prepare (p : Program) : Mode → Except BuildError Engine
  | .interpreted => .ok (.interpreter p)
  | .compiled => (Routine.compile p .standard).map .routine

/-- The engine for a source text. An empty text needs none. -/
def ofSource (source : String) (c : Config) (mode : Mode) : Except Error (Option Engine) :=
  if source.isEmpty then .ok none
  else
    match parse source c with
    | .error e => .error (.brackets e)
    | .ok p =>
      match prepare p mode with
      | .error e => .error (.build e)
      | .ok engine => .ok (some engine)

def tapeLength : Engine → Nat
  | interpreter p => p.tapeLength
  | routine r => r.tapeLength

/-- A tape that fits, unless its length is enormous. -/
def blankTape (e : Engine) : Except Crash Tape := Tape.create e.tapeLength

/-- The ending of a run on `tape` and the surroundings after it, unless `fuel` actions are too
few. -/
@[specialize]
def run {σ : Type} (e : Engine) (d : Device byteStream σ) (fuel : Nat) (tape : Tape) (world : σ) :
    Option (Ending × σ) :=
  match e with
  | interpreter p =>
    (TapeLang.run (Interpreter.step p) d fuel (Interpreter.start tape) world).result?
  | routine r => (TapeLang.run r.step d fuel (Routine.start tape) world).result?

end Engine

end TapeLang
