import TapeLang.Config
import TapeLang.Program.Basic

/-!
# Joining instructions while they are read

A `Fuser` collects instructions one by one, newest first, and looks only at the newest one or two:

* neighbouring moves, or neighbouring additions, become one with the sum of their counts. A sum of
  zero stays in place while more of the same kind follows and is dropped when anything else arrives;
* `[` and a single step up or down, closed by `]`, become one reset.
-/

namespace TapeLang

/-- `a + b` modulo `m` for `a` and `b` below `m`, without a sum above `m`. -/
def addMod (a b m : Nat) : Nat :=
  if m - b ≤ a then a - (m - b) else a + b

theorem addMod_eq {a b m : Nat} (ha : a < m) (hb : b < m) : addMod a b m = (a + b) % m := by
  unfold addMod
  split
  · rw [show a + b = a - (m - b) + m by omega, Nat.add_mod_right, Nat.mod_eq_of_lt (by omega)]
  · rw [Nat.mod_eq_of_lt (by omega)]

structure Fuser where
  tapeLength : Nat
  optimisations : Optimisations
  /-- Newest first. -/
  instructions : List Instruction
  /-- How many joins and resets were made. -/
  fusions : Nat

namespace Fuser

def empty (tapeLength : Nat) (o : Optimisations) : Fuser := ⟨tapeLength, o, [], 0⟩

/-- The instructions without a newest one that does nothing. -/
def settled (f : Fuser) : List Instruction :=
  match f.instructions with
  | last :: rest => if last.op.isIdle then rest else f.instructions
  | [] => []

def append (f : Fuser) (op : Op) (position : Option Position) : Fuser :=
  { f with instructions := ⟨op, position⟩ :: f.settled }

/-- Put `op` in the place of the newest instruction, as a join with one at `position`. -/
def joinLast (f : Fuser) (op : Op) (last : Instruction) (rest : List Instruction)
    (position : Option Position) : Fuser :=
  { f with
    instructions := ⟨op, Position.span last.position position⟩ :: rest
    fusions := f.fusions + 1 }

def pushMove (f : Fuser) (count : Nat) (position : Option Position) : Fuser :=
  let count := count % f.tapeLength
  match f.optimisations.joinRuns, f.instructions with
  | true, last@⟨.move n, _⟩ :: rest =>
    f.joinLast (.move (addMod n count f.tapeLength)) last rest position
  | _, _ => f.append (.move count) position

def pushAdd (f : Fuser) (count : Nat) (position : Option Position) : Fuser :=
  let count := count % cellModulus
  match f.optimisations.joinRuns, f.instructions with
  | true, last@⟨.add n, _⟩ :: rest =>
    f.joinLast (.add (addMod n count cellModulus)) last rest position
  | _, _ => f.append (.add count) position

/-- Close the innermost loop, or turn it into a reset if its whole body is a single step. -/
def pushLoopEnd (f : Fuser) (position : Option Position) : Fuser :=
  match f.optimisations.clearLoops, f.instructions with
  | true, body :: start :: rest =>
    if body.op.isUnitAdd && start.op == .loopStart then f.joinLast .reset start rest position
    else f.append .loopEnd position
  | _, _ => f.append .loopEnd position

/-- The instructions in source order, without a last one that does nothing. -/
def finish (f : Fuser) : Array Instruction := f.settled.toArray.reverse

end Fuser

end TapeLang
