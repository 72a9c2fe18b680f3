/-!
# Failures of streams and files

A failure has a kind, which programs may act on, and a text for readers.
-/

namespace TapeLang

inductive FailureKind where
  | notFound | permissionDenied | connectionRefused | connectionReset | hostUnreachable
  | networkUnreachable | connectionAborted | notConnected | addrInUse | addrNotAvailable
  | networkDown | brokenPipe | alreadyExists | wouldBlock | notADirectory | isADirectory
  | directoryNotEmpty | readOnlyFilesystem | staleNetworkFileHandle | invalidInput | invalidData
  | timedOut | writeZero | storageFull | notSeekable | quotaExceeded | fileTooLarge
  | resourceBusy | executableFileBusy | deadlock | crossesDevices | tooManyLinks
  | invalidFilename | argumentListTooLong | interrupted | unsupported | unexpectedEof
  | outOfMemory | other
deriving DecidableEq

structure Failure where
  kind : FailureKind
  text : String
deriving DecidableEq

namespace Failure

/-- The failure with number `code` of the operating system, `meaning` being the system's words. -/
def ofSystem (kind : FailureKind) (meaning : String) (code : Nat) : Failure :=
  ⟨kind, s!"{meaning} (os error {code})"⟩

def noSuchFile : Failure := ofSystem .notFound "No such file or directory" 2
def fileExists : Failure := ofSystem .alreadyExists "File exists" 17
def notDirectory : Failure := ofSystem .notADirectory "Not a directory" 20
def isDirectory : Failure := ofSystem .isADirectory "Is a directory" 21
def nameTooLong : Failure := ofSystem .invalidFilename "File name too long" 36

/-- The system takes names only up to the first zero byte. -/
def zeroInName : Failure := ⟨.invalidInput, "file name contained an unexpected NUL byte"⟩

/-- An output that takes no byte at all will never take the rest. -/
def nothingWritten : Failure := ⟨.writeZero, "failed to write whole buffer"⟩

def notUtf8 : Failure := ⟨.invalidData, "stream did not contain valid UTF-8"⟩

end Failure

end TapeLang
