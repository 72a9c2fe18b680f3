import TapeLang.Assembly
import TapeLang.Transfer
import TapeLang.X86.Cpu

/-!
# Compiled routines

A routine is the machine code of a program for use inside another process. `Routine.step` runs it on
a processor whose memory holds the tape, the pointer and a stack. Reads and writes are calls of two
hooks, which transfer a byte just as the interpreter does and keep the error if that fails. A hook
finds all that it works with by the context it is given: the streams, the positions of the
instructions, and the place for the error.
-/

namespace TapeLang

open X86

/-- What a hook leaves where it need not keep anything. -/
structure Scratch where
  registers : Registers
  flags : Flags
  /-- Bytes on the stack, the last of them right below the address that the hook returns to. -/
  stack : List UInt8

/-- A process that runs routines: where it keeps what they need, and what they find when they are
called. -/
structure Host where
  text : UInt64
  tape : UInt64
  pointer : UInt64
  stack : UInt64
  /-- What is on the stack when a routine is called, apart from the return address. -/
  stackBytes : Cells
  /-- What the hooks have to be given. -/
  context : UInt64
  readHook : UInt64
  writeHook : UInt64
  /-- Where a routine returns to. -/
  back : UInt64
  /-- What is in the registers when a routine is called, apart from its arguments and the top of the
  stack. -/
  registers : Registers
  flags : Flags
  /-- What a hook leaves behind that is called in the given state. -/
  scratch : Cpu → Scratch

namespace Host

def stackSize (h : Host) : Nat := h.stackBytes.size

/-- The addresses are far enough apart for code and tapes of up to 2^31 bytes. -/
def standard : Host where
  text := 0x100000000
  tape := 0x100000000000
  pointer := 0x10000
  stack := 0x20000
  stackBytes := .blank 256
  context := 0x30000
  readHook := 0x40000
  writeHook := 0x40010
  back := 0x50000
  registers := .zero
  flags := .clear
  scratch _ := ⟨.zero, .clear, []⟩

def linkage (h : Host) : Linkage := .hosted h.readHook h.writeHook

end Host

structure Routine where
  host : Host
  text : Text
  tapeLength : Nat
  /-- The position of each instruction of the program. -/
  positions : Array (Option Position)
  tapeLength_pos : 0 < tapeLength

namespace Routine

/-- Compile `p` for `host`. -/
def compile (p : Program) (host : Host) : Except BuildError Routine := do
  let operations ← p.lower.toExcept
  let code ← assemble (fragments host.linkage operations)
  return {
    host
    text := .ofBytes host.text code
    tapeLength := p.tapeLength
    positions := p.instructions.map (·.position)
    tapeLength_pos := p.tapeLength_pos }

def size (r : Routine) : Nat := r.text.bytes.size

def summary (r : Routine) : String :=
  s!"CompiledRoutine \x7b code_len: {r.size}, tape_length: {r.tapeLength} \x7d"

/-- What a routine keeps while it runs. -/
structure Frame where
  /-- The tape before the routine was entered. -/
  tape : Tape
  canPeek : Bool
  /-- What the last hook that failed has kept. -/
  error : Option RunError
deriving DecidableEq

/-- `calling` is the middle of a hook: a read for the instruction at `position`, or a write. -/
inductive State where
  | opening (tape : Tape)
  | native (f : Frame) (c : Cpu)
  | calling (f : Frame) (c : Cpu) (isRead : Bool) (position : Option Position) (stage : Transfer)
  | closed (ending : Ending)
deriving DecidableEq

def start (tape : Tape) : State := .opening tape

/-- The processor at the first instruction of the routine, called with its three arguments. -/
def entered (r : Routine) (tape : Tape) : Cpu :=
  let h := r.host
  let top := h.stack + h.stackSize.toUInt64
  let empty : Memory :=
    ⟨[⟨h.tape, tape.cells⟩, ⟨h.pointer, .blank 8⟩, ⟨h.stack, h.stackBytes⟩]⟩
  let memory := (empty.storeWord h.pointer tape.pointer.toUInt64).storeWord (top - 8) h.back
  let regs :=
    (((h.registers.set .rdi h.tape).set .rsi h.pointer).set .rdx h.context).set .rsp (top - 8)
  ⟨regs, h.flags, h.text, memory⟩

/-- The tape as it stands in memory; `before` if there is none. -/
def recover (r : Routine) (c : Cpu) (before : Tape) : Tape :=
  let pointer := (c.memory.loadWord r.host.pointer).toNat
  match c.memory.regions.find? (·.base == r.host.tape) with
  | some region => if h : pointer < region.bytes.size then ⟨region.bytes, pointer, h⟩ else before
  | none => before

/-- The memory after a hook that was called in `c` has used the stack below the address that it
returns to, as far as there is any. -/
def usedStack (r : Routine) (c : Cpu) : Memory :=
  let top := c.get .rsp
  let used := (r.host.scratch c).stack.take (top - r.host.stack).toNat
  c.memory.storeList (top - used.length.toUInt64) used

/-- Return from a hook with `result`, which takes the lower half of its register. -/
def hookReturn (r : Routine) (result : UInt32) (c : Cpu) : Cpu.Outcome :=
  let left := r.host.scratch c
  let rax := (left.registers.rax &&& 0xFFFFFFFF00000000) ||| result.toUInt64
  let keep (g : Registers) (q : Reg) := if q.isCalleeSaved then g.set q (c.get q) else g
  let regs := Reg.all.foldl keep (left.registers.set .rax rax)
  let c : Cpu := { c with regs, flags := left.flags, memory := r.usedStack c }
  c.pop fun target c => .running (c.jump target)

namespace State

/-- The state after the processor has got to `o`. -/
@[inline]
def ofOutcome (f : Frame) : Cpu.Outcome → State
  | .running c => .native f c
  | .systemCall c => .closed ⟨.crashed (.badSystemCall (c.get .rax)), f.tape⟩
  | .crashed reason => .closed ⟨.crashed reason, f.tape⟩

/-- Take in the reply to a stage of a hook's transfer. A failed read returns −1, a failed write
1. -/
def afterTransfer (r : Routine) (f : Frame) (c : Cpu) (isRead : Bool)
    (position : Option Position) : Transfer.Next → State
  | .stage t => .calling f c isRead position t
  | .done (.received byte) => ofOutcome f (r.hookReturn byte.toUInt32 c)
  | .done .sent => ofOutcome f (r.hookReturn 0 c)
  | .done (.failed e) =>
    ofOutcome { f with error := some e } (r.hookReturn (if isRead then 0xFFFFFFFF else 1) c)

end State

def opened (r : Routine) (tape : Tape) (canPeek : Bool) : State :=
  .native ⟨tape, canPeek, none⟩ (r.entered tape)

/-- The error of a routine that returns a status other than 0 though no hook has failed. -/
def unreported : RunError := .stream ⟨.other, "compiled routine failed without reporting an error"⟩

def finished (tape : Tape) : Except Failure Unit → State
  | .ok () => .closed ⟨.finished, tape⟩
  | .error e => .closed ⟨.failed (.stream e), tape⟩

/-- The routine has returned. -/
def returned (r : Routine) (f : Frame) (c : Cpu) : Action byteStream State Ending :=
  let tape := r.recover c f.tape
  if (c.get .rax).toUInt32 = 0 then .ask .flush (finished tape)
  else .halt ⟨.failed (f.error.getD unreported), tape⟩

/-- A hook is called. With anything but its context it crashes. -/
def hooked (r : Routine) (f : Frame) (c : Cpu) (isRead : Bool) (position : Option Position)
    (stage : Transfer) : Action byteStream State Ending :=
  if c.get .rdi = r.host.context then .next (.calling f c isRead position stage)
  else .halt ⟨.crashed (.badAccess (c.get .rdi)), f.tape⟩

/-- The processor has left the code: it has returned or is at a hook. -/
def outside (r : Routine) (f : Frame) (c : Cpu) : Action byteStream State Ending :=
  if c.ip = r.host.back then r.returned f c
  else if c.ip = r.host.readHook then
    let index := (c.get .rsi).toUInt32
    r.hooked f c true (r.positions[index.toNat]?.join) .prompt
  else if c.ip = r.host.writeHook then
    r.hooked f c false none (.offer (c.get .rsi).toUInt8)
  else .halt ⟨.crashed (.badInstruction c.ip), f.tape⟩

@[inline]
def step (r : Routine) : State → Action byteStream State Ending
  | .opening tape =>
    if tape.length ≠ r.tapeLength then
      .halt ⟨.failed (.tapeMismatch r.tapeLength tape.length), tape⟩
    else .ask .canPeek (r.opened tape)
  | .native f c =>
    match c.fetch? r.text with
    | some (i, size) => .next (.ofOutcome f ((c.skip size.toUInt64).execute i))
    | none => r.outside f c
  | .calling f c isRead position stage =>
    .ask stage.request fun reply =>
      .afterTransfer r f c isRead position (stage.resume f.canPeek position reply)
  | .closed ending => .halt ending

end Routine

end TapeLang
