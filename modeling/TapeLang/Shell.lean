import TapeLang.Dialogue
import TapeLang.Failure

/-!
# The shell

What a command may ask of the place it was started from: files by their paths, and two channels for
text.
-/

namespace TapeLang

inductive OutputChannel where
  | standard
  | error
deriving DecidableEq

/-- `create` makes a new executable file and never touches one that exists; `sync` makes sure that
what was written stays. -/
inductive ShellRequest where
  | isFile (path : String)
  | read (path : String)
  | create (path : String)
  | write (path : String) (content : Array UInt8)
  | sync (path : String)
  | remove (path : String)
  | print (channel : OutputChannel) (text : String)
deriving DecidableEq

@[reducible]
def ShellRequest.Reply : ShellRequest → Type
  | isFile _ => Bool
  | read _ => Except Failure (Array UInt8)
  | create _ => Except Failure Unit
  | write _ _ => Except Failure Unit
  | sync _ => Except Failure Unit
  | remove _ => Except Failure Unit
  | print _ _ => Unit

@[reducible]
def shell : Interface := ⟨ShellRequest, ShellRequest.Reply⟩

end TapeLang
