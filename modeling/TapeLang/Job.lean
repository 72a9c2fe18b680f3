import TapeLang.Elf
import TapeLang.Stream.Cursor
import TapeLang.X86.Cpu

/-!
# Jobs

A job runs the code of a loaded file on a processor of its own and asks the system for memory,
input and output. `Job.step` carries out instructions and turns system calls into requests;
`Job.Console` answers them from a byte string and collects the output.
-/

namespace TapeLang

open X86

/-- The six arguments of a request for memory. -/
structure Mapping where
  /-- Where the memory should be, or 0 for anywhere. -/
  address : UInt64
  length : UInt64
  protection : UInt64
  flags : UInt64
  /-- The file that the memory shows, from `offset` on. -/
  descriptor : UInt64
  offset : UInt64
deriving DecidableEq

/-- Private memory that can be read and written, wherever there is room. It shows no file, so it is
cleared. -/
def Mapping.cleared (length : UInt64) : Mapping where
  address := 0
  length
  protection := 3 -- to be read (1) and written (2)
  flags := 0x22 -- private (2), without a file (0x20)
  descriptor := -1
  offset := 0

/-- What a job asks the system for: memory, or to move bytes through a descriptor. -/
inductive SystemRequest where
  | map (m : Mapping)
  | read (descriptor count : UInt64)
  | write (descriptor : UInt64) (bytes : List UInt8)
deriving DecidableEq

/-- The number of a failure, as the system counts them. -/
abbrev ErrorNumber := UInt64

/-- The address of the memory, the bytes read (none at the end of the input), or the number of bytes
written. -/
@[reducible]
def SystemRequest.Reply : SystemRequest → Type
  | map _ => Except ErrorNumber UInt64
  | read _ _ => Except ErrorNumber (List UInt8)
  | write _ _ => Except ErrorNumber UInt64

@[reducible]
def system : Interface := ⟨SystemRequest, SystemRequest.Reply⟩

/-- How a job ends. -/
inductive Exit where
  | status (code : UInt8)
  | crashed (reason : Crash)
deriving DecidableEq

structure Job where
  text : Text
  /-- Where execution starts, and the stack it starts with. -/
  cpu : Cpu

namespace Job

def stackBase : UInt64 := 0x7FFF00000000
def stackSize : Nat := 4096

/-- A loaded segment with a stack, whose top is aligned to sixteen bytes. -/
def ofSegment (s : Elf.Segment) : Job :=
  let top := stackBase + stackSize.toUInt64 - 256
  { text := .ofBytes s.base s.bytes
    cpu := ⟨Registers.zero.set .rsp top, .clear, s.entry, ⟨[⟨stackBase, .blank stackSize⟩]⟩⟩ }

def load? (file : Array UInt8) : Option Job := (Elf.Segment.ofBytes? file).map ofSegment

/-- A job is running, or has come to its end. -/
inductive State where
  | running (c : Cpu)
  | ended (e : Exit)

def start (p : Job) : State := .running p.cpu

def ofOutcome : Cpu.Outcome → State
  | .running c => .running c
  | .systemCall c => .ended (.crashed (.badSystemCall (c.get .rax)))
  | .crashed reason => .ended (.crashed reason)

/-- On with `v` as the result of a system call. -/
def answered (c : Cpu) (v : UInt64) : State := .running (c.set .rax v)

/-- The memory `m` is there from `base` on. Unless it is cleared memory, nothing is known of it, and
nothing is added that could be read or written. -/
def addMemory (memory : Memory) (m : Mapping) (base : UInt64) : Memory :=
  if m = .cleared m.length then ⟨⟨base, .blank m.length.toNat⟩ :: memory.regions⟩ else memory

def afterMap (c : Cpu) (m : Mapping) : Except ErrorNumber UInt64 → State
  | .ok base => answered { c with memory := addMemory c.memory m base } base
  | .error n => answered c (0 - n)

/-- At most `count` bytes arrive at `address`. -/
def afterRead (c : Cpu) (address count : UInt64) : Except ErrorNumber (List UInt8) → State
  | .ok bytes =>
    let bytes := bytes.take count.toNat
    if c.memory.coversBytes address bytes.length then
      answered { c with memory := c.memory.storeList address bytes } bytes.length.toUInt64
    else .ended (.crashed (.badAccess address))
  | .error n => answered c (0 - n)

def afterWrite (c : Cpu) : Except ErrorNumber UInt64 → State
  | .ok count => answered c count
  | .error n => answered c (0 - n)

/-- The arguments of a request for memory. -/
def mapping (c : Cpu) : Mapping where
  address := c.get .rdi
  length := c.get .rsi
  protection := c.get .rdx
  flags := c.get .r10
  descriptor := c.get .r8
  offset := c.get .r9

/-- The system call that the registers of `c` describe. -/
def systemCall (c : Cpu) : Action system State Exit :=
  let number := c.get .rax
  if number = 0 then
    .ask (.read (c.get .rdi) (c.get .rdx)) (afterRead c (c.get .rsi) (c.get .rdx))
  else if number = 1 then
    let count := (c.get .rdx).toNat
    if c.memory.coversBytes (c.get .rsi) count then
      .ask (.write (c.get .rdi) (c.memory.toList (c.get .rsi) count)) (afterWrite c)
    else .halt (.crashed (.badAccess (c.get .rsi)))
  else if number = 9 then .ask (.map (mapping c)) (afterMap c (mapping c))
  else if number = 60 then .halt (.status (c.get .rdi).toUInt8)
  else .halt (.crashed (.badSystemCall number))

@[inline]
def step (text : Text) : State → Action system State Exit
  | .running c =>
    match c.step text with
    | .running c => .next (.running c)
    | .systemCall c => systemCall c
    | .crashed reason => .halt (.crashed reason)
  | .ended e => .halt e

/-! ## A console -/

/-- A system that has cleared memory, an input at descriptor 0 and an output at descriptor 1. -/
structure Console where
  input : Cursor
  output : Array UInt8
deriving DecidableEq

def mapBase : UInt64 := 0x7F0000000000

/-- The number for a descriptor that is not open. -/
def badDescriptor : ErrorNumber := 9

/-- The number for arguments that the system does not take. -/
def invalidArgument : ErrorNumber := 22

def console : Device system Console
  | .map m, w => (if m = .cleared m.length then .ok mapBase else .error invalidArgument, w)
  | .read descriptor count, w =>
    if descriptor = 0 then
      let (bytes, input) := w.input.take count.toNat
      (.ok bytes, { w with input })
    else (.error badDescriptor, w)
  | .write descriptor bytes, w =>
    if descriptor = 1 then
      (.ok bytes.length.toUInt64, { w with output := w.output.appendList bytes })
    else (.error badDescriptor, w)

end Job

end TapeLang
