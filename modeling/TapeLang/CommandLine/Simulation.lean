import TapeLang.CommandLine.Basic
import TapeLang.FileSystem
import TapeLang.Stream.Buffered

/-!
# Running the command in memory

The command with its files, its input and its outputs as values.
-/

namespace TapeLang.CommandLine

/-- What a command leaves behind. -/
structure Result where
  status : UInt8
  output : Array UInt8
  errors : String
  files : FileSystem
deriving DecidableEq

/-- How much of its input a command reads at once. -/
def inputCapacity : Nat := 8192

/-- Run the command on the input `input`, for at most `fuel` actions of its program. -/
def simulate (fuel : Nat) (color : Bool) (args : List String) (input : Array UInt8)
    (files : FileSystem) : Option Result :=
  let (next, t) := (begin color args).run Terminal.device ⟨files, "", ""⟩
  let before := t.output.toUTF8.data
  let finish (last : Command UInt8) (output : Array UInt8) : Result :=
    let (status, t) := last.run Terminal.device t
    ⟨status, output, t.errors, t.files⟩
  match next with
  | .exit status => some ⟨status, before, t.errors, t.files⟩
  | .run task =>
    match task.engine.blankTape with
    | .error c => some (finish (abandon c) before)
    | .ok tape =>
      let streams := Buffered.source.beside collecting
      let world := (Buffered.ofBytes inputCapacity input.toList, before)
      match task.engine.run streams fuel tape world with
      | none => none
      | some (ending, _, output) => some (finish (conclude task ending) output)

end TapeLang.CommandLine
