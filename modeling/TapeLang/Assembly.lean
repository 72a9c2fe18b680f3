import TapeLang.LabelCode.Basic
import TapeLang.X86.Instr
import Std.Data.HashMap

/-!
# Assembly of machine code

A routine is called with the address of the tape, the address of the pointer, and a context for its
hooks. It returns 0, or 1 if a transfer failed, and writes the pointer back in both cases. While it
runs,

* `rbx` holds the address of the tape, `r12` the pointer,
* `r13` holds the context, `r14` the address of the pointer.

Code is first a list of fragments: instructions, branches to a target, and marks that place a
target. `assemble` lays the fragments out one behind the other and gives every branch its
displacement; a target that is placed twice is where it was placed last.
-/

namespace TapeLang

open X86

/-- How reads and writes reach the outside: by calls of two hooks, or by system calls. -/
inductive Linkage where
  | hosted (readHook writeHook : UInt64)
  | freestanding
deriving DecidableEq

/-- `fail` is the exit of a routine after a failed transfer, `routine` the place of the routine in
an executable. -/
inductive Target where
  | label (l : Label)
  | fail
  | routine
deriving DecidableEq, Hashable

inductive Fragment where
  | instr (i : Instr)
  | branch (b : Branch) (target : Target)
  | mark (target : Target)
deriving DecidableEq

namespace Fragment

def size : Fragment → Nat
  | instr i => i.size
  | branch b _ => b.opcode.length + 4
  | mark _ => 0

end Fragment

/-! ## Blocks -/

namespace Block

/-- The current cell. -/
def cell : Mem := ⟨.rbx, .r12⟩

def plain (code : List Instr) : List Fragment := code.map .instr

/-- `r15` is saved to keep the stack aligned. -/
def prologue : List Fragment :=
  plain [.push .rbx, .push .r12, .push .r13, .push .r14, .push .r15,
    .mov .qword .rbx .rdi, .mov .qword .r14 .rsi, .load .r12 .rsi, .mov .qword .r13 .rdx]

/-- The part of the epilogue that both exits share. -/
def leave : List Instr :=
  [.store .r14 .r12, .pop .r15, .pop .r14, .pop .r13, .pop .r12, .pop .rbx, .ret]

/-- A jump back over the code `skipped`. -/
def jumpBack (skipped : List Instr) : Instr :=
  .branch .jump (Int32.ofInt (-(codeSize skipped + (Instr.branch .jump 0).size : Nat)))

def epilogue : List Fragment :=
  let status : Instr := .movImm32 .rax 1
  plain (.xor .dword .rax .rax :: leave) ++ [.mark .fail] ++
    plain [status, jumpBack (leave ++ [status])]

def move (count : UInt32) : Wrap → List Fragment
  | .mask bits => plain [.alu .add .r12 count.toInt32, .alu .and .r12 bits.toInt32]
  | .length cells =>
    let wrapOnce : Instr := .alu .sub .r12 cells.toInt32
    plain [.alu .add .r12 count.toInt32, .alu .cmp .r12 cells.toInt32,
      .jumpShort .below (Int8.ofNat wrapOnce.size), wrapOnce]

/-- Call the hook at `address`, which is given its context. -/
def callHook (address : UInt64) (arguments : List Instr) : List Fragment :=
  plain (.mov .qword .rdi .r13 :: arguments ++
    [.movImm64 .rax address, .callReg .rax, .test .dword .rax .rax])

/-- Move one byte between the current cell and a file, and fail unless a byte was moved. -/
def moveByte (number descriptor : UInt32) : List Fragment :=
  plain [.movImm32 .rax number, .movImm32 .rdi descriptor, .lea .rsi cell, .movImm32 .rdx 1,
    .syscall, .test .qword .rax .rax] ++ [.branch (.jumpIf .lessEqual) .fail]

def read (index : UInt32) : Linkage → List Fragment
  | .hosted readHook _ =>
    callHook readHook [.movImm32 .rsi index] ++
      [.branch (.jumpIf .sign) .fail, .instr (.storeByte cell .rax)]
  | .freestanding => moveByte 0 0

def write (index : UInt32) : Linkage → List Fragment
  | .hosted _ writeHook =>
    callHook writeHook [.loadByte .rsi cell, .movImm32 .rdx index] ++
      [.branch (.jumpIf .notEqual) .fail]
  | .freestanding => moveByte 1 1

/-- The code of one operation. -/
def ofOperation (linkage : Linkage) : Operation → List Fragment
  | .prologue => prologue
  | .epilogue => epilogue
  | .bind l => [.mark (.label l)]
  | .jump l => [.branch .jump (.label l)]
  | .branchIfZero l => [.instr (.aluByte .cmp cell 0), .branch (.jumpIf .equal) (.label l)]
  | .move count wrap => move count wrap
  | .add amount => [.instr (.aluByte .add cell amount)]
  | .reset => [.instr (.movByte cell 0)]
  | .read index => read index linkage
  | .write index => write index linkage

/-! ### The start of a process -/

/-- The arguments of the system call for the tape. The first subtraction aligns the stack for the
call of the routine. -/
def requestTape (tapeLength : UInt32) : List Instr :=
  [.aluImm8 .sub .rsp 8, .movImm32 .rax 9, .xor .dword .rdi .rdi,
    .movSigned32 .rsi tapeLength.toInt32, .movImm32 .rdx 3, .movImm32 .r10 0x22,
    .movSigned32 .r8 (-1), .xor .dword .r9 .r9]

def getTape (tapeLength : UInt32) : List Instr :=
  requestTape tapeLength ++ [.syscall, .test .qword .rax .rax]

/-- The arguments of the routine. The pointer is put on the stack. -/
def passTape : List Instr :=
  [.mov .qword .rdi .rax, .pushImm8 0, .mov .qword .rsi .rsp, .xor .dword .rdx .rdx]

def keepStatus : Instr := .mov .dword .rdi .rax

def exitProcess : List Instr := [.movImm32 .rax 60, .syscall]

/-- The status if there is no memory. -/
def statusWithoutMemory : Instr := .movImm32 .rdi 2

/-- Get a cleared tape from the system, call the routine with the pointer at 0, and exit with its
status, or with 2 if there is no memory. -/
def entryPoint (tapeLength : UInt32) (target : Target) : List Fragment :=
  let call : Fragment := .branch .call target
  let distance := codeSize passTape + call.size + keepStatus.size + codeSize exitProcess
  let exitWithoutMemory := exitProcess ++ [statusWithoutMemory]
  plain (getTape tapeLength ++ [.branch (.jumpIf .sign) (Int32.ofNat distance)] ++ passTape) ++
    [call, .instr keepStatus] ++ plain (exitWithoutMemory ++ [jumpBack exitWithoutMemory])

end Block

/-- The fragments of label code. -/
def fragments (linkage : Linkage) (operations : Array Operation) : Array Fragment :=
  operations.flatMap fun op => (Block.ofOperation linkage op).toArray

/-! ## Layout -/

namespace Assembly

def size (fragments : Array Fragment) : Nat := fragments.foldl (fun n f => n + f.size) 0

/-- The offsets of the targets that `fragments` mark, the first of them being at `offset`. -/
def placesFrom (offset : Nat) (found : Std.HashMap Target Nat) :
    List Fragment → Std.HashMap Target Nat
  | [] => found
  | f :: rest =>
    let found :=
      match f with
      | .mark target => found.insert target offset
      | _ => found
    placesFrom (offset + f.size) found rest

/-- The displacement to `target` of a branch that ends at `stop`. `size` is that of the whole code,
for the error. -/
def displacement (places : Std.HashMap Target Nat) (size stop : Nat) (target : Target) :
    Except BuildError Int32 :=
  match places[target]? with
  | none => .error .unboundLabel
  | some place =>
    let d : Int := place - stop
    if -0x80000000 ≤ d ∧ d < 0x80000000 then .ok (Int32.ofInt d) else .error (.programTooLarge size)

/-- The bytes of a fragment at `offset`. -/
def bytesAt (places : Std.HashMap Target Nat) (size offset : Nat) (f : Fragment) :
    Except BuildError (List UInt8) :=
  match f with
  | .instr i => .ok i.encode
  | .mark _ => .ok []
  | .branch b target =>
    match displacement places size (offset + f.size) target with
    | .ok d => .ok (Instr.branch b d).encode
    | .error e => .error e

def bytesFrom (places : Std.HashMap Target Nat) (size offset : Nat) (done : Array UInt8) :
    List Fragment → Except BuildError (Array UInt8)
  | [] => .ok done
  | f :: rest =>
    match bytesAt places size offset f with
    | .ok bytes => bytesFrom places size (offset + f.size) (done.appendList bytes) rest
    | .error e => .error e

end Assembly

/-- The machine code of `fragments`. The first branch that cannot be resolved is reported. -/
def assemble (fragments : Array Fragment) : Except BuildError (Array UInt8) :=
  let places := Assembly.placesFrom 0 ∅ fragments.toList
  Assembly.bytesFrom places (Assembly.size fragments) 0 #[] fragments.toList

end TapeLang
