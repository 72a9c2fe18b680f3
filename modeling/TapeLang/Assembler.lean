import TapeLang.Assembly
import TapeLang.LabelCode.Emitter

/-!
# Assembling step by step

An `Assembler` writes code as it is asked to, before it is known where branches lead. Each
displacement is left open: four zero bytes stand in its place, and it is kept where they are and
which target is meant. `finish` fills the displacements in, each target being where it was placed
last.

The code at the start of a process and the epilogue branch within themselves, by labels that are
made for them.

* `Assembler.apply`, `Assembler.run`: what can be asked for.
* `Assembler.finish`: the machine code, or what is wrong with the first branch that cannot be
  filled in.
* `Assembler.emitter`: label code can be lowered into an assembler.
-/

namespace TapeLang

open X86 LittleEndian

namespace Block

/-- The epilogue, with a label at the exit. -/
def epilogueAt (exit : Label) : List Fragment :=
  plain [.xor .dword .rax .rax] ++ [.mark (.label exit)] ++ plain leave ++
    [.mark .fail, .instr (.movImm32 .rax 1), .branch .jump (.label exit)]

/-- The start of a process, with labels at its exit and at what is done without memory. -/
def entryPointAt (exit noMemory : Label) (tapeLength : UInt32) (target : Label) : List Fragment :=
  plain (getTape tapeLength) ++ [.branch (.jumpIf .sign) (.label noMemory)] ++ plain passTape ++
    [.branch .call (.label target), .instr keepStatus, .mark (.label exit)] ++ plain exitProcess ++
    [.mark (.label noMemory), .instr statusWithoutMemory, .branch .jump (.label exit)]

end Block

structure Assembler where
  linkage : Linkage
  code : Array UInt8
  /-- How many labels were created. -/
  created : Nat
  /-- The offset of each target that was placed. -/
  places : Std.HashMap Target Nat
  /-- The displacements that are open, each with its offset and its target. -/
  fixups : Array (Nat × Target)

namespace Assembler

def start (linkage : Linkage) : Assembler := ⟨linkage, #[], 0, ∅, #[]⟩

/-- What stands where a displacement is to be filled in. -/
def gap : List UInt8 := [0, 0, 0, 0]

/-- Put a fragment behind the code. -/
def put : Assembler → Fragment → Assembler
  | ⟨linkage, code, created, places, fixups⟩, f =>
    match f with
    | .instr i => ⟨linkage, code.appendList i.encode, created, places, fixups⟩
    | .branch b target =>
      let offset := code.size + b.opcode.length
      ⟨linkage, code.appendList (b.opcode ++ gap), created, places, fixups.push (offset, target)⟩
    | .mark target => ⟨linkage, code, created, places.insert target code.size, fixups⟩

/-- What an assembler can be asked for. -/
inductive Call where
  | newLabel
  | operation (op : Operation)
  | call (target : Label)
  | entryPoint (tapeLength : UInt32) (target : Label)
deriving DecidableEq

namespace Call

/-- How many labels are created. -/
def created : Call → Nat
  | newLabel => 1
  | operation .epilogue => 1
  | operation _ => 0
  | call _ => 0
  | entryPoint .. => 2

/-- What is put behind the code, if `next` is the first unused label. -/
def fragments (linkage : Linkage) (next : Label) : Call → List Fragment
  | newLabel => []
  | operation .epilogue => Block.epilogueAt next
  | operation op => Block.ofOperation linkage op
  | call target => [.branch .call (.label target)]
  | entryPoint tapeLength target => Block.entryPointAt next (next + 1) tapeLength target

end Call

def apply (a : Assembler) (c : Call) : Assembler :=
  (c.fragments a.linkage a.created).foldl put { a with created := a.created + c.created }

def run (a : Assembler) (calls : List Call) : Assembler := calls.foldl apply a

/-! ## Filling in -/

/-- Write `bytes` over those from `offset` on. -/
def overwrite (code : Array UInt8) (offset : Nat) : List UInt8 → Array UInt8
  | [] => code
  | byte :: rest => overwrite (code.setIfInBounds offset byte) (offset + 1) rest

/-- Fill in displacements one by one. -/
def fill (a : Assembler) (code : Array UInt8) :
    List (Nat × Target) → Except BuildError (Array UInt8)
  | [] => .ok code
  | (offset, target) :: rest =>
    match Assembly.displacement a.places a.code.size (offset + gap.length) target with
    | .ok d => a.fill (overwrite code offset (bytes32 d.toUInt32)) rest
    | .error e => .error e

def finish (a : Assembler) : Except BuildError (Array UInt8) := a.fill a.code a.fixups.toList

/-! ## Label code -/

def emitter : Emitter Assembler Label where
  newLabel a := (a.created, a.apply .newLabel)
  bind l a := a.apply (.operation (.bind l))
  prologue a := a.apply (.operation .prologue)
  epilogue a := a.apply (.operation .epilogue)
  move count wrap a := a.apply (.operation (.move count wrap))
  add amount a := a.apply (.operation (.add amount))
  reset a := a.apply (.operation .reset)
  branchIfZero l a := a.apply (.operation (.branchIfZero l))
  jump l a := a.apply (.operation (.jump l))
  read index a := a.apply (.operation (.read index))
  write index a := a.apply (.operation (.write index))

end Assembler

end TapeLang
