import TapeLang.Program.Parser

/-!
# Writing programs as source text

`Program.source` is a text that reads back as the same operations on a tape of the same length. A
move or an addition is written in its shorter direction. Neighbours that would join when read again
are kept apart by a pair of commands that cancels out.
-/

namespace TapeLang

namespace Program

/-- `count` steps modulo `modulus`, in the direction that needs fewer; forward if both need as
many. -/
def shortestRun (count modulus : Nat) (forward back : Char) : List Char :=
  if count ≤ modulus - count then List.replicate count forward
  else List.replicate (modulus - count) back

/-- One operation by itself. -/
def opSource (tapeLength : Nat) : Op → List Char
  | .move n => shortestRun n tapeLength '>' '<'
  | .add n => shortestRun n cellModulus '+' '-'
  | .reset => ['[', '-', ']']
  | .loopStart => ['[']
  | .loopEnd => [']']
  | .read => [',']
  | .write => ['.']

/-- A pair that cancels out and does not join with `previous`. -/
def barrier (previous : Op) : List Char :=
  if previous.isMove then ['+', '-'] else ['>', '<']

/-- Whether reading `op` right after `previous`, itself right after `beforeThat`, would lose it in a
join or a reset. -/
def needsBarrier (beforeThat previous : Option Op) (op : Op) : Bool :=
  match op, previous with
  | .move _, some (.move _) => true
  | .add _, some (.add _) => true
  | .loopEnd, some body => body.isUnitAdd && beforeThat == some .loopStart
  | _, _ => false

/-- The text of `ops` behind `previous` and `beforeThat`. -/
def sourceFrom (tapeLength : Nat) (beforeThat previous : Option Op) : List Op → List (List Char)
  | [] => []
  | op :: rest =>
    let gap := if needsBarrier beforeThat previous op then previous.elim [] barrier else []
    (gap ++ opSource tapeLength op) :: sourceFrom tapeLength previous (some op) rest

def source (p : Program) : String :=
  String.ofList (sourceFrom p.tapeLength none none p.ops).flatten

end Program

end TapeLang
