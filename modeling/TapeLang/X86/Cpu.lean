import TapeLang.RunError
import TapeLang.X86.Decoder
import TapeLang.X86.Flags
import TapeLang.X86.Memory

/-!
# The processor

`Cpu.step` reads the instruction at the instruction pointer and carries it out. Instructions come
from a `Text`, which nothing can write to; data from the memory. `Cpu.execute` only combines
functions that change one part of the processor each.
-/

namespace TapeLang.X86

/-- Machine code at a fixed address, with what can be read at each of its offsets. -/
structure Text where
  base : UInt64
  bytes : Array UInt8
  instructions : Array (Option (Instr × Nat))

namespace Text

def ofBytes (base : UInt64) (bytes : Array UInt8) : Text :=
  ⟨base, bytes, decodeAll #[] bytes.toList⟩

/-- The instruction at an address, and its length. -/
def fetch? (t : Text) (address : UInt64) : Option (Instr × Nat) :=
  match t.instructions[(address - t.base).toNat]? with
  | some (some i) => some i
  | _ => none

end Text

def signed8 (v : Int8) : UInt64 := v.toInt64.toUInt64
def signed32 (v : Int32) : UInt64 := v.toInt64.toUInt64

structure Cpu where
  regs : Registers
  flags : Flags
  /-- The address of the next instruction. -/
  ip : UInt64
  memory : Memory
deriving DecidableEq

/-- What carrying out an instruction leads to. A system call is left to the surroundings. -/
inductive Cpu.Outcome where
  | running (c : Cpu)
  | systemCall (c : Cpu)
  | crashed (reason : Crash)

namespace Cpu

def get (c : Cpu) (r : Reg) : UInt64 := c.regs.get r

def set : Cpu → Reg → UInt64 → Cpu
  | ⟨regs, flags, ip, memory⟩, r, v => ⟨regs.set r v, flags, ip, memory⟩

def setFlags : Cpu → Flags → Cpu
  | ⟨regs, _, ip, memory⟩, flags => ⟨regs, flags, ip, memory⟩

def jump : Cpu → UInt64 → Cpu
  | ⟨regs, flags, _, memory⟩, target => ⟨regs, flags, target, memory⟩

/-- Go on `distance` further. -/
def skip : Cpu → UInt64 → Cpu
  | ⟨regs, flags, ip, memory⟩, distance => ⟨regs, flags, ip + distance, memory⟩

def skipIf (c : Cpu) (cond : Cond) (distance : UInt64) : Cpu :=
  if c.flags.holds cond then c.skip distance else c

def address (c : Cpu) (m : Mem) : UInt64 := c.get m.base + c.get m.index

def covers (c : Cpu) (address : UInt64) : Bool := c.memory.covers address

def load (c : Cpu) (address : UInt64) : UInt8 := c.memory.load address

def store : Cpu → UInt64 → UInt8 → Cpu
  | ⟨regs, flags, ip, memory⟩, address, v => ⟨regs, flags, ip, memory.store address v⟩

/-- Write the word `v` to `address`. -/
def storeWord : Cpu → UInt64 → UInt64 → Outcome
  | ⟨regs, flags, ip, memory⟩, address, v =>
    if memory.coversWord address then .running ⟨regs, flags, ip, memory.storeWord address v⟩
    else .crashed (.badAccess address)

def push (c : Cpu) (v : UInt64) : Outcome :=
  let top := c.get .rsp - 8
  (c.set .rsp top).storeWord top v

/-- Take the word on top of the stack and go on with it. -/
def pop (c : Cpu) (k : UInt64 → Cpu → Outcome) : Outcome :=
  let top := c.get .rsp
  if c.memory.coversWord top then k (c.memory.loadWord top) (c.set .rsp (top + 8))
  else .crashed (.badAccess top)

/-- Push the address of the next instruction and go to `target`. -/
def callTo (c : Cpu) (target : UInt64) : Outcome :=
  match c.push c.ip with
  | .running c => .running (c.jump target)
  | other => other

/-- Arithmetic on a register. -/
def calculate (c : Cpu) (op : Alu) (dst : Reg) (b : UInt64) : Cpu :=
  let a := c.get dst
  let c := c.setFlags (op.flags64 a b)
  if op.stores then c.set dst (op.result64 a b) else c

/-- Arithmetic on the byte at an address. -/
def calculateByte (c : Cpu) (op : Alu) (address : UInt64) (b : UInt8) : Cpu :=
  let a := c.load address
  let c := c.setFlags (op.flags8 a b)
  if op.stores then c.store address (op.result8 a b) else c

/-- Carry out `i`, with the instruction pointer already behind it. -/
@[inline]
def execute (c : Cpu) : Instr → Outcome
  | .push r => c.push (c.get r)
  | .pushImm8 v => c.push (signed8 v)
  | .pop r => c.pop fun v c => .running (c.set r v)
  | .mov .dword dst src => .running (c.set dst (c.get src).toUInt32.toUInt64)
  | .mov .qword dst src => .running (c.set dst (c.get src))
  | .load dst base =>
    let a := c.get base
    if c.memory.coversWord a then .running (c.set dst (c.memory.loadWord a))
    else .crashed (.badAccess a)
  | .store base src => c.storeWord (c.get base) (c.get src)
  | .movImm32 dst v => .running (c.set dst v.toUInt64)
  | .movSigned32 dst v => .running (c.set dst (signed32 v))
  | .movImm64 dst v => .running (c.set dst v)
  | .xor .dword dst src =>
    let v := (c.get dst).toUInt32 ^^^ (c.get src).toUInt32
    .running ((c.set dst v.toUInt64).setFlags (.ofBits32 v))
  | .xor .qword dst src =>
    let v := c.get dst ^^^ c.get src
    .running ((c.set dst v).setFlags (.ofBits64 v))
  | .test .dword a b =>
    let v := (c.get a).toUInt32 &&& (c.get b).toUInt32
    .running (c.setFlags (.ofBits32 v))
  | .test .qword a b => .running (c.setFlags (.ofBits64 (c.get a &&& c.get b)))
  | .alu op dst v => .running (c.calculate op dst (signed32 v))
  | .aluImm8 op dst v => .running (c.calculate op dst (signed8 v))
  | .aluByte op m v =>
    let a := c.address m
    if c.covers a then .running (c.calculateByte op a v) else .crashed (.badAccess a)
  | .movByte m v =>
    let a := c.address m
    if c.covers a then .running (c.store a v) else .crashed (.badAccess a)
  | .loadByte dst m =>
    let a := c.address m
    if c.covers a then .running (c.set dst (c.load a).toUInt64) else .crashed (.badAccess a)
  | .storeByte m src =>
    let a := c.address m
    if c.covers a then .running (c.store a (c.get src).toUInt8) else .crashed (.badAccess a)
  | .lea dst m => .running (c.set dst (c.address m))
  | .jumpShort cond d => .running (c.skipIf cond (signed8 d))
  | .branch .call d => c.callTo (c.ip + signed32 d)
  | .branch .jump d => .running (c.skip (signed32 d))
  | .branch (.jumpIf cond) d => .running (c.skipIf cond (signed32 d))
  | .callReg r => c.callTo (c.get r)
  | .ret => c.pop fun target c => .running (c.jump target)
  | .syscall => .systemCall ((c.set .rcx c.ip).set .r11 c.flags.word)

/-- The instruction at the instruction pointer, and its size. -/
def fetch? (c : Cpu) (text : Text) : Option (Instr × Nat) := text.fetch? c.ip

/-- One instruction of `text`. -/
@[inline]
def step (text : Text) (c : Cpu) : Outcome :=
  match c.fetch? text with
  | some (i, size) => (c.skip size.toUInt64).execute i
  | none => .crashed (.badInstruction c.ip)

end Cpu

end TapeLang.X86
