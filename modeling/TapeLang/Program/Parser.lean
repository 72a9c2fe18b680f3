import TapeLang.Program.Fuser

/-!
# Reading programs

`parse` scans a source text once, hands each command to a `Fuser` and keeps the open brackets.
Every other character is a comment.
-/

namespace TapeLang

/-- Why the brackets of a text cannot be matched. -/
inductive BracketError where
  | unmatchedClose (position : Position)
  | unmatchedOpen (position : Position)
  | tooDeep (position : Position) (maxDepth : Nat)
deriving DecidableEq

namespace BracketError

def position : BracketError → Position
  | .unmatchedClose p => p
  | .unmatchedOpen p => p
  | .tooDeep p _ => p

def message : BracketError → String
  | .unmatchedClose _ => "This ] has no matching ["
  | .unmatchedOpen _ => "This [ has no matching ]"
  | .tooDeep _ maxDepth => s!"Loops may not be nested {maxDepth} or more levels deep"

end BracketError

/-- What is known after a part of the text: the instructions so far, and where each open bracket
stands, the innermost last. -/
structure Scan where
  fuser : Fuser
  openLoops : Array Nat

namespace Scan

def start (c : Config) : Scan := ⟨.empty c.tapeLength c.optimisations, #[]⟩

/-- Take in the character `ch` at `index`. -/
def step (maxDepth : Nat) (s : Scan) (index : Nat) (ch : Char) : Except BracketError Scan :=
  let here := some (Position.single index)
  match ch with
  | '>' => .ok { s with fuser := s.fuser.pushMove 1 here }
  | '<' => .ok { s with fuser := s.fuser.pushMove (s.fuser.tapeLength - 1) here }
  | '+' => .ok { s with fuser := s.fuser.pushAdd 1 here }
  | '-' => .ok { s with fuser := s.fuser.pushAdd (cellModulus - 1) here }
  | ',' => .ok { s with fuser := s.fuser.append .read here }
  | '.' => .ok { s with fuser := s.fuser.append .write here }
  | '[' =>
    if maxDepth ≤ s.openLoops.size + 1 then .error (.tooDeep (.single index) maxDepth)
    else .ok ⟨s.fuser.append .loopStart here, s.openLoops.push index⟩
  | ']' =>
    if s.openLoops.isEmpty then .error (.unmatchedClose (.single index))
    else .ok ⟨s.fuser.pushLoopEnd here, s.openLoops.pop⟩
  | _ => .ok s

/-- Take in the characters from `index` on. -/
def steps (maxDepth : Nat) (s : Scan) (index : Nat) : List Char → Except BracketError Scan
  | [] => .ok s
  | ch :: rest =>
    match s.step maxDepth index ch with
    | .ok s' => s'.steps maxDepth (index + 1) rest
    | .error e => .error e

end Scan

/-- The scan of a whole text, all its brackets closed. -/
def scan (source : String) (c : Config) : Except BracketError Scan :=
  match (Scan.start c).steps c.maxDepth 0 source.toList with
  | .error e => .error e
  | .ok s =>
    match s.openLoops.back? with
    | some index => .error (.unmatchedOpen (.single index))
    | none => .ok s

/-- The program that a scan amounts to. -/
def Scan.program (s : Scan) (c : Config) : Program :=
  ⟨s.fuser.finish, c.tapeLength, c.maxDepth, c.tapeLength_pos⟩

/-- The program that `source` spells, or what is wrong with its brackets. -/
def parse (source : String) (c : Config) : Except BracketError Program :=
  match scan source c with
  | .error e => .error e
  | .ok s => .ok (s.program c)

end TapeLang
