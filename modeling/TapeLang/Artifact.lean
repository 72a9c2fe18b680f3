import TapeLang.Executable
import TapeLang.Shell

/-!
# Writing executables to files

`Program.writeExecutable` makes a new file or none: the code is built before the file system is
touched, an existing file is never written to, and a new file that cannot be completed is removed.
-/

namespace TapeLang

/-- Remove a file that could not be completed. -/
def discard (path : String) (f : Failure) : Dialogue shell (Except BuildError Executable) := do
  let _ ← Dialogue.request (I := shell) (.remove path)
  return .error (.file f)

def Executable.save (e : Executable) (path : String) :
    Dialogue shell (Except BuildError Executable) := do
  match ← Dialogue.request (I := shell) (.create path) with
  | .error f =>
    return .error (if f.kind = .alreadyExists then .artifactExists path else .file f)
  | .ok () =>
    match ← Dialogue.request (I := shell) (.write path e.bytes) with
    | .error f => discard path f
    | .ok () =>
      match ← Dialogue.request (I := shell) (.sync path) with
      | .error f => discard path f
      | .ok () => return .ok e

/-- Compile `p` into a new executable at `path`. -/
def Program.writeExecutable (p : Program) (path moduleName : String) :
    Dialogue shell (Except BuildError Executable) :=
  match Executable.build p moduleName with
  | .error e => .done (.error e)
  | .ok e => e.save path

end TapeLang
