import TapeLang.Assembly
import TapeLang.Elf

/-!
# Stand-alone executables

The code of an executable starts a process, and is followed by the routine of its program, which
reads and writes by system calls. The process exits with 0 when the program is through, with 1 if
the input runs out or a transfer fails, and with 2 if there is no memory for the tape. Behind the
code stands the name of the module and a zero byte.
-/

namespace TapeLang

structure Executable where
  code : Array UInt8
  moduleName : String
deriving DecidableEq

/-- What executables are called if nobody names them. -/
def defaultModuleName : String := "bf_program"

namespace Executable

/-- The fragments of a whole executable around the label code of a program. -/
def fragmentsAround (tapeLength : Nat) (operations : Array Operation) : Array Fragment :=
  (Block.entryPoint tapeLength.toUInt32 .routine).toArray.push (.mark .routine) ++
    fragments .freestanding operations

def build (p : Program) (moduleName : String) : Except BuildError Executable := do
  let operations ← p.lower.toExcept
  let code ← assemble (fragmentsAround p.tapeLength operations)
  return ⟨code, moduleName⟩

def image (e : Executable) : Elf.Image := ⟨e.code, 0, e.moduleName.toUTF8.data.push 0⟩

def bytes (e : Executable) : Array UInt8 := e.image.bytes

end Executable

end TapeLang
