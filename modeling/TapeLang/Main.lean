import TapeLang.CommandLine.Basic

/-!
# The program

The command with the files, the streams and the environment of its process.
-/

namespace TapeLang.Main

/-- What a failed call of the system means. -/
def failureOf : IO.Error → Failure
  | .noFileOrDirectory .. => .noSuchFile
  | .alreadyExists _ code details =>
    if code = 17 then .fileExists else .ofSystem .alreadyExists details code.toNat
  | .inappropriateType _ code details =>
    if code = 21 then .isDirectory
    else if code = 20 then .notDirectory
    else .ofSystem .other details code.toNat
  | .permissionDenied _ code details => .ofSystem .permissionDenied details code.toNat
  | .interrupted _ code details => .ofSystem .interrupted details code.toNat
  | .invalidArgument _ code details =>
    if code = 36 then .nameTooLong else .ofSystem .invalidInput details code.toNat
  | .resourceExhausted _ code details => .ofSystem .storageFull details code.toNat
  | .resourceVanished code details => .ofSystem .brokenPipe details code.toNat
  | e => ⟨.other, toString e⟩

/-- Run `action`, with a failure as a value. -/
def attempt {α : Type} (action : IO α) : IO (Except Failure α) := do
  try
    return .ok (← action)
  catch e =>
    return .error (failureOf e)

/-- Everyone may read and run an executable, its owner may write it. -/
def executableRights : IO.FileRight :=
  let others : IO.AccessRight := { read := true, execution := true }
  { user := { read := true, write := true, execution := true }, group := others, other := others }

def createFile (path : String) : IO Unit := do
  let _ ← IO.FS.Handle.mk path .writeNew
  IO.setAccessRights path executableRights

def answerShell : (r : ShellRequest) → IO r.Reply
  | .isFile path => do
    match ← attempt (IO.FS.readBinFile path) with
    | .ok _ => return true
    | .error f => return f.kind == .permissionDenied
  | .read path => attempt do return (← IO.FS.readBinFile path).data
  | .create path => attempt (createFile path)
  | .write path content => attempt (IO.FS.writeBinFile path ⟨content⟩)
  | .sync _ => return .ok ()
  | .remove path => attempt (IO.FS.removeFile path)
  | .print .standard text => IO.print text
  | .print .error text => IO.eprint text

def converse {α : Type} : Dialogue shell α → IO α
  | .done a => return a
  | .ask request resume => do converse (resume (← answerShell request))

/-- How long to wait before the next look at an input, in milliseconds. -/
def pollInterval : UInt32 := 100

/-- The standard streams. The input cannot be looked at. -/
def answerStream (input output : IO.FS.Stream) : (r : ByteRequest) → IO r.Reply
  | .canPeek => return false
  | .peek => return .ok .ready
  | .next => attempt do return (← input.read 1).data[0]?
  | .put byte => attempt do
    output.write ⟨#[byte]⟩
    return true
  | .flush => attempt output.flush
  | .pause => IO.sleep pollInterval

/-- Run a machine to its end. -/
partial def drive {S R : Type} (answer : (r : ByteRequest) → IO r.Reply)
    (step : S → Action byteStream S R) (state : S) : IO R := do
  match step state with
  | .next state => drive answer step state
  | .ask request resume => drive answer step (resume (← answer request))
  | .halt result => return result

def runTask (task : CommandLine.Task) (tape : Tape) : IO Ending := do
  let answer := answerStream (← IO.getStdin) (← IO.getStdout)
  match task.engine with
  | .interpreter p => drive answer (Interpreter.step p) (Interpreter.start tape)
  | .routine r => drive answer r.step (Routine.start tape)

/-- Colors are forced by one variable, forbidden by another, and else used on terminals. -/
def usesColor : IO Bool := do
  match ← IO.getEnv "CLICOLOR_FORCE" with
  | some v => if v != "0" then return true
  | none => pure ()
  if (← IO.getEnv "NO_COLOR").isSome then return false
  (← IO.getStderr).isTty

end TapeLang.Main

def main (args : List String) : IO UInt32 := do
  match ← TapeLang.Main.converse (TapeLang.CommandLine.begin (← TapeLang.Main.usesColor) args) with
  | .exit status => return status.toUInt32
  | .run task =>
    let last ← match task.engine.blankTape with
      | .ok tape => do
        pure (TapeLang.CommandLine.conclude task (← TapeLang.Main.runTask task tape))
      | .error c => pure (TapeLang.CommandLine.abandon c)
    let status ← TapeLang.Main.converse last
    (← IO.getStdout).flush
    return status.toUInt32
