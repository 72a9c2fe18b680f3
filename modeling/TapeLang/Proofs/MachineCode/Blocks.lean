import Mathlib.Algebra.Ring.Nat
import TapeLang.Proofs.LabelCode.Flat
import TapeLang.Proofs.MachineCode.Resolved

/-!
# The bytes of instructions

Each instruction of a program becomes a block of bytes, in which only the displacement of a branch
depends on the rest of the program. Blocks can be told apart by their instructions, so the program
reads back from its code.

* `prologue`, `block`, `epilogue`: the bytes.
* `blockLength`: the length of a block depends on the kinds of operation, wrap and linkage alone.
* `resolve_fragmentsOf`, `encodeAll_blockCode`: the fragments of an instruction become its block.
* `readBack`, `readBack_blocks`: the operations are read from the code, each with its number.
-/

namespace TapeLang

open X86 LittleEndian Lowering

namespace MachineCode

/-! ## Bytes -/

/-- Entry: `push rbx; push r12; push r13; push r14; push r15; mov rbx, rdi; mov r14, rsi;
mov r12, [rsi]; mov r13, rdx` -/
def prologue : List UInt8 :=
  [0x53, 0x41, 0x54, 0x41, 0x55, 0x41, 0x56, 0x41, 0x57, 0x48, 0x89, 0xFB, 0x49, 0x89, 0xF6,
    0x4C, 0x8B, 0x26, 0x49, 0x89, 0xD5]

/-- Exit: `xor eax, eax; mov [r14], r12; pop r15; pop r14; pop r13; pop r12; pop rbx; ret`, and
behind it `mov eax, 1; jmp -23` -/
def epilogue : List UInt8 :=
  [0x31, 0xC0, 0x4D, 0x89, 0x26, 0x41, 0x5F, 0x41, 0x5E, 0x41, 0x5D, 0x41, 0x5C, 0x5B, 0xC3,
    0xB8, 0x01, 0x00, 0x00, 0x00, 0xE9, 0xE9, 0xFF, 0xFF, 0xFF]

/-- First `add r12, count`, then `and r12, bits` or `cmp r12, cells; jb +7; sub r12, cells` -/
def move (count : UInt32) : Wrap → List UInt8
  | .mask bits => [0x49, 0x81, 0xC4] ++ bytes32 count ++ [0x49, 0x81, 0xE4] ++ bytes32 bits
  | .length cells =>
    [0x49, 0x81, 0xC4] ++ bytes32 count ++ [0x49, 0x81, 0xFC] ++ bytes32 cells ++
      [0x72, 0x07, 0x49, 0x81, 0xEC] ++ bytes32 cells

/-- One byte by a system call: `mov eax, number; mov edi, number; lea rsi, [rbx + r12]; mov edx, 1;
syscall; test rax, rax; jle d` -/
def systemCall (number : UInt32) (d : Int32) : List UInt8 :=
  [0xB8] ++ bytes32 number ++ [0xBF] ++ bytes32 number ++
    [0x4A, 0x8D, 0x34, 0x23, 0xBA, 0x01, 0x00, 0x00, 0x00, 0x0F, 0x05, 0x48, 0x85, 0xC0,
      0x0F, 0x8E] ++ bytes32 d.toUInt32

/-- Hosted: `mov rdi, r13; mov esi, index; mov rax, hook; call rax; test eax, eax; js d;
mov [rbx + r12], al` -/
def read (index : UInt32) (d : Int32) : Linkage → List UInt8
  | .hosted hook _ =>
    [0x4C, 0x89, 0xEF, 0xBE] ++ bytes32 index ++ [0x48, 0xB8] ++ bytes64 hook ++
      [0xFF, 0xD0, 0x85, 0xC0, 0x0F, 0x88] ++ bytes32 d.toUInt32 ++ [0x42, 0x88, 0x04, 0x23]
  | .freestanding => systemCall 0 d

/-- Hosted: `mov rdi, r13; movzx esi, byte [rbx + r12]; mov edx, index; mov rax, hook; call rax;
test eax, eax; jne d` -/
def write (index : UInt32) (d : Int32) : Linkage → List UInt8
  | .hosted _ hook =>
    [0x4C, 0x89, 0xEF, 0x42, 0x0F, 0xB6, 0x34, 0x23, 0xBA] ++ bytes32 index ++ [0x48, 0xB8] ++
      bytes64 hook ++ [0xFF, 0xD0, 0x85, 0xC0, 0x0F, 0x85] ++ bytes32 d.toUInt32
  | .freestanding => systemCall 1 d

/-- The bytes of the instruction with number `index`. If it has a branch, its displacement is
`d`. -/
def block (linkage : Linkage) (wrap : Wrap) (index : Nat) (d : Int32) : Op → List UInt8
  | .move n => move n.toUInt32 wrap
  | .add n => [0x42, 0x80, 0x04, 0x23, n.toUInt8]
  | .reset => [0x42, 0xC6, 0x04, 0x23, 0x00]
  | .read => read index.toUInt32 d linkage
  | .write => write index.toUInt32 d linkage
  | .loopStart => [0x42, 0x80, 0x3C, 0x23, 0x00, 0x0F, 0x84] ++ bytes32 d.toUInt32
  | .loopEnd => [0xE9] ++ bytes32 d.toUInt32

def blockLength (linkage : Linkage) (wrap : Wrap) : Op → Nat
  | .move _ =>
    match wrap with
    | .mask _ => 14
    | .length _ => 23
  | .add _ => 5
  | .reset => 5
  | .read =>
    match linkage with
    | .hosted .. => 32
    | .freestanding => 30
  | .write =>
    match linkage with
    | .hosted .. => 33
    | .freestanding => 30
  | .loopStart => 11
  | .loopEnd => 5

/-- Where in a block its branch stands, and of which kind it is, if there is one. -/
def branchOf? (linkage : Linkage) : Op → Option (Nat × Branch)
  | .read =>
    match linkage with
    | .hosted .. => some (22, .jumpIf .sign)
    | .freestanding => some (24, .jumpIf .lessEqual)
  | .write =>
    match linkage with
    | .hosted .. => some (27, .jumpIf .notEqual)
    | .freestanding => some (24, .jumpIf .lessEqual)
  | .loopStart => some (5, .jumpIf .equal)
  | .loopEnd => some (0, .jump)
  | _ => none

theorem length_block (linkage : Linkage) (wrap : Wrap) (index : Nat) (d : Int32) (op : Op) :
    (block linkage wrap index d op).length = blockLength linkage wrap op := by
  cases op <;> cases linkage <;> cases wrap <;> rfl

/-- The bytes of instructions, each with its own displacement. -/
def blocks (linkage : Linkage) (wrap : Wrap) (d : Nat → Int32) (index : Nat) (ops : List Op) :
    List UInt8 :=
  (ops.zipIdx index).flatMap fun i => block linkage wrap i.2 (d i.2) i.1

theorem length_blocks {linkage : Linkage} {wrap : Wrap} (d : Nat → Int32) (index : Nat)
    (ops : List Op) :
    (blocks linkage wrap d index ops).length = (ops.map (blockLength linkage wrap)).sum := by
  induction ops generalizing index with
  | nil => rfl
  | cons op ops ih =>
    rw [blocks, List.zipIdx_cons, List.flatMap_cons, List.length_append, length_block,
      List.map_cons, List.sum_cons, ← ih (index + 1)]
    rfl

/-! ## Instructions -/

/-- The instruction of a fragment, if all branches have the displacement `d`. -/
def instr? (d : Int32) : Fragment → Option Instr
  | .instr i => some i
  | .branch b _ => some (.branch b d)
  | .mark _ => none

/-- The fragments of an instruction. A bracket is one of `loop`. -/
def fragmentsOf (linkage : Linkage) (wrap : Wrap) (index : Nat) (loop : Loop) (op : Op) :
    List Fragment :=
  (operationsOf wrap index loop op).flatMap (Block.ofOperation linkage)

/-- The instructions of a block. -/
def blockCode (linkage : Linkage) (wrap : Wrap) (index : Nat) (d : Int32) (op : Op) : List Instr :=
  (fragmentsOf linkage wrap index ⟨0, 0⟩ op).filterMap (instr? d)

/-- Where the branch of an instruction leads. -/
def goalOf (loop : Loop) : Op → Target
  | .loopStart => .label loop.behind
  | .loopEnd => .label loop.top
  | _ => .fail

/-- Where in a block its branch ends. -/
def branchEnd (linkage : Linkage) (op : Op) : Nat :=
  match branchOf? linkage op with
  | some (start, b) => start + (b.opcode.length + 4)
  | none => 0

variable {linkage : Linkage} {wrap : Wrap} {index : Nat} {d : Int32} {loop : Loop} {op : Op}

theorem encodeAll_blockCode (linkage : Linkage) (wrap : Wrap) (index : Nat) (d : Int32) (op : Op) :
    encodeAll (blockCode linkage wrap index d op) = block linkage wrap index d op := by
  cases op <;> cases linkage <;> cases wrap <;> rfl

theorem sizes_fragmentsOf (linkage : Linkage) (wrap : Wrap) (index : Nat) (loop : Loop) (op : Op) :
    Fragment.sizes (fragmentsOf linkage wrap index loop op) = blockLength linkage wrap op := by
  cases op <;> cases linkage <;> cases wrap <;> rfl

theorem resolve_fragmentsOf (place : Target → Nat) (offset : Nat) :
    Assembly.resolve place offset (fragmentsOf linkage wrap index loop op) =
      blockCode linkage wrap index
        (.ofInt (place (goalOf loop op) - (offset + branchEnd linkage op : Nat))) op := by
  cases op <;> cases linkage <;> cases wrap <;> rfl

/-- The branch in its block. -/
theorem branch_in_block {start : Nat} {b : Branch} (hb : branchOf? linkage op = some (start, b)) :
    (Instr.branch b d).encode <+: (block linkage wrap index d op).drop start := by
  cases op with
  | read =>
    cases linkage <;> cases hb
    · exact ⟨[0x42, 0x88, 0x04, 0x23], rfl⟩
    · exact List.prefix_refl _
  | write => cases linkage <;> cases hb <;> exact List.prefix_refl _
  | loopStart =>
    cases hb
    exact List.prefix_refl _
  | loopEnd =>
    cases hb
    exact List.prefix_refl _
  | move n => cases hb
  | add n => cases hb
  | reset => cases hb

theorem operationsOf_command (c : Command) :
    operationsOf wrap index loop c.op = [c.operation wrap index] := by cases c <;> rfl

/-- The fragments of an instruction can be encoded if the target of its branch is marked. -/
theorem sound_fragmentsOf {marked : List Target} (hfail : .fail ∈ marked)
    (hgoal : goalOf loop op ∈ marked) :
    ∀ f ∈ fragmentsOf linkage wrap index loop op, f.Sound marked := by
  intro f hf
  rcases op.bracket_or_command with rfl | rfl | ⟨c, rfl⟩
  · simp [fragmentsOf, operationsOf, Block.ofOperation] at hf
    rcases hf with rfl | rfl | rfl
    · trivial
    · exact Tree.regular_cell
    · exact hgoal
  · simp [fragmentsOf, operationsOf, Block.ofOperation] at hf
    rcases hf with rfl | rfl
    · exact hgoal
    · trivial
  · rw [fragmentsOf, operationsOf_command, List.flatMap_singleton] at hf
    exact Tree.sound_command c index hfail f hf

theorem regular_blockCode (linkage : Linkage) (wrap : Wrap) (index : Nat) (d : Int32) (op : Op) :
    ∀ i ∈ blockCode linkage wrap index d op, i.Regular := by
  intro i hi
  obtain ⟨f, hf, hfi⟩ := List.mem_filterMap.mp hi
  have hsound := @sound_fragmentsOf linkage wrap index ⟨0, 0⟩ op [.fail, goalOf ⟨0, 0⟩ op]
    (by simp) (by simp) f hf
  cases f with
  | instr j =>
    cases hfi
    exact hsound
  | branch b t =>
    cases hfi
    trivial
  | mark t => cases hfi

/-! ## Reading back -/

/-- What the code of an operation says of it: additions count modulo 256. -/
def carried : Op → Op
  | .add n => .add (n % cellModulus)
  | op => op

/-- The operations of instructions, each with its number. The transfers of hosted code say their
number, all others are counted from `index` on. -/
def readOps (index : Nat) : List Instr → List (Op × Nat)
  | .alu .add _ n :: .alu .and _ _ :: rest =>
    (.move n.toUInt32.toNat, index) :: readOps (index + 1) rest
  | .alu .add _ n :: .alu .cmp _ _ :: .jumpShort _ _ :: .alu .sub _ _ :: rest =>
    (.move n.toUInt32.toNat, index) :: readOps (index + 1) rest
  | .aluByte .add _ n :: rest => (.add n.toNat, index) :: readOps (index + 1) rest
  | .movByte _ _ :: rest => (.reset, index) :: readOps (index + 1) rest
  | .aluByte .cmp _ _ :: .branch _ _ :: rest => (.loopStart, index) :: readOps (index + 1) rest
  | .branch _ _ :: rest => (.loopEnd, index) :: readOps (index + 1) rest
  | .mov _ _ _ :: .movImm32 _ number :: .movImm64 _ _ :: .callReg _ :: .test _ _ _ :: .branch _ _ ::
      .storeByte _ _ :: rest =>
    (.read, number.toNat) :: readOps (index + 1) rest
  | .mov _ _ _ :: .loadByte _ _ :: .movImm32 _ number :: .movImm64 _ _ :: .callReg _ ::
      .test _ _ _ :: .branch _ _ :: rest =>
    (.write, number.toNat) :: readOps (index + 1) rest
  | .movImm32 _ call :: .movImm32 _ _ :: .lea _ _ :: .movImm32 _ _ :: .syscall :: .test _ _ _ ::
      .branch _ _ :: rest =>
    (if call = 0 then .read else .write, index) :: readOps (index + 1) rest
  | _ => []

/-- One block reads back, whatever stands behind it. -/
theorem readOps_blockCode (hindex : index < 2 ^ 32) (hmove : ∀ n, op = .move n → n < 2 ^ 32)
    (d : Int32) (rest : List Instr) :
    readOps index (blockCode linkage wrap index d op ++ rest) =
      (carried op, index) :: readOps (index + 1) rest := by
  have hnumber : index.toUInt32.toNat = index := UInt32.toNat_ofNat_of_lt hindex
  cases op with
  | move n =>
    have hcount : n.toUInt32.toNat = n := UInt32.toNat_ofNat_of_lt (hmove n rfl)
    have hread : readOps index (blockCode linkage wrap index d (.move n) ++ rest) =
        (.move n.toUInt32.toNat, index) :: readOps (index + 1) rest := by cases wrap <;> rfl
    rw [hread, hcount]
    rfl
  | add n =>
    have hread : readOps index (blockCode linkage wrap index d (.add n) ++ rest) =
        (.add n.toUInt8.toNat, index) :: readOps (index + 1) rest := rfl
    rw [hread]
    rfl
  | reset => rfl
  | loopStart => rfl
  | loopEnd => rfl
  | read =>
    cases linkage with
    | hosted r w =>
      have hread : readOps index (blockCode (.hosted r w) wrap index d .read ++ rest) =
          (.read, index.toUInt32.toNat) :: readOps (index + 1) rest := rfl
      rw [hread, hnumber]
      rfl
    | freestanding => rfl
  | write =>
    cases linkage with
    | hosted r w =>
      have hread : readOps index (blockCode (.hosted r w) wrap index d .write ++ rest) =
          (.write, index.toUInt32.toNat) :: readOps (index + 1) rest := rfl
      rw [hread, hnumber]
      rfl
    | freestanding => rfl

/-- The instructions of a program from number `index` on. -/
def codeFrom (linkage : Linkage) (wrap : Wrap) (d : Nat → Int32) (index : Nat) (ops : List Op) :
    List Instr :=
  (ops.zipIdx index).flatMap fun i => blockCode linkage wrap i.2 (d i.2) i.1

theorem codeFrom_cons (linkage : Linkage) (wrap : Wrap) (d : Nat → Int32) (index : Nat) (op : Op)
    (ops : List Op) :
    codeFrom linkage wrap d index (op :: ops) =
      blockCode linkage wrap index (d index) op ++ codeFrom linkage wrap d (index + 1) ops := rfl

theorem codeFrom_append (linkage : Linkage) (wrap : Wrap) (d : Nat → Int32) (index : Nat)
    (ops more : List Op) :
    codeFrom linkage wrap d index (ops ++ more) =
      codeFrom linkage wrap d index ops ++ codeFrom linkage wrap d (index + ops.length) more := by
  rw [codeFrom, List.zipIdx_append, List.flatMap_append]
  rfl

theorem readOps_codeFrom {ops : List Op} (hindex : index + ops.length ≤ 2 ^ 32)
    (hmoves : ∀ n, .move n ∈ ops → n < 2 ^ 32) (d : Nat → Int32) (rest : List Instr) :
    readOps index (codeFrom linkage wrap d index ops ++ rest) =
      (ops.map carried).zipIdx index ++ readOps (index + ops.length) rest := by
  induction ops generalizing index with
  | nil => rfl
  | cons op ops ih =>
    rw [List.length_cons] at hindex
    have hop (n : Nat) (he : op = .move n) : n < 2 ^ 32 :=
      hmoves n (by rw [he]; exact List.mem_cons_self)
    have hrest := @ih (index + 1) (by omega) fun n hn => hmoves n (List.mem_cons_of_mem op hn)
    rw [codeFrom_cons, List.append_assoc, readOps_blockCode (by omega) hop, hrest, List.map_cons,
      List.zipIdx_cons, List.cons_append, List.length_cons, Nat.add_assoc, Nat.add_comm 1]

/-! ## Whole routines -/

def prologueCode : List Instr := Block.prologue.filterMap (instr? 0)

def epilogueCode : List Instr := Block.epilogue.filterMap (instr? 0)

theorem encodeAll_prologueCode : encodeAll prologueCode = prologue := by decide

theorem encodeAll_epilogueCode : encodeAll epilogueCode = epilogue := by decide

theorem encodeAll_codeFrom (d : Nat → Int32) (index : Nat) (ops : List Op) :
    encodeAll (codeFrom linkage wrap d index ops) =
      blocks linkage wrap d index ops := by
  induction ops generalizing index with
  | nil => rfl
  | cons op ops ih =>
    rw [codeFrom_cons, encodeAll_append, encodeAll_blockCode, ih]
    rfl

theorem regular_codeFrom (d : Nat → Int32) (ops : List Op) :
    ∀ i ∈ codeFrom linkage wrap d index ops, i.Regular := by
  intro i hi
  obtain ⟨k, -, hk⟩ := List.mem_flatMap.mp hi
  exact regular_blockCode linkage wrap k.2 (d k.2) k.1 i hk

/-- The operations of a routine, read from the instructions behind its prologue. -/
def readBack (code : List UInt8) : List (Op × Nat) := readOps 0 ((disassemble code).drop 9)

/-- The operations and their numbers can be told from the code. -/
theorem readBack_blocks {ops : List Op} (hindex : ops.length ≤ 2 ^ 32)
    (hmoves : ∀ n, .move n ∈ ops → n < 2 ^ 32) (d : Nat → Int32) :
    readBack (prologue ++ blocks linkage wrap d 0 ops ++ epilogue) = (ops.map carried).zipIdx := by
  have hcode : prologue ++ blocks linkage wrap d 0 ops ++ epilogue =
      encodeAll (prologueCode ++ (codeFrom linkage wrap d 0 ops ++ epilogueCode)) ++ [] := by
    rw [encodeAll_append, encodeAll_append, encodeAll_prologueCode, encodeAll_codeFrom,
      encodeAll_epilogueCode, List.append_nil, List.append_assoc]
  have hregular : ∀ i ∈ prologueCode ++ (codeFrom linkage wrap d 0 ops ++ epilogueCode),
      i.Regular := by
    intro i hi
    rcases List.mem_append.mp hi with hi | hi
    · exact (show ∀ i ∈ prologueCode, i.Regular by decide) i hi
    · rcases List.mem_append.mp hi with hi | hi
      · exact regular_codeFrom d ops i hi
      · exact (show ∀ i ∈ epilogueCode, i.Regular by decide) i hi
  have hnine : prologueCode.length = 9 := rfl
  have hend : readOps (0 + ops.length) epilogueCode = [] := rfl
  rw [readBack, hcode, disassemble_encodeAll hregular, disassemble, List.append_nil, ← hnine,
    List.drop_left, readOps_codeFrom (by rwa [Nat.zero_add]) hmoves, hend, List.append_nil]

/-- Operations that are reduced can be told apart by what code says of them. -/
theorem map_carried {ops : List Op} (h : ∀ n, .add n ∈ ops → n < cellModulus) :
    ops.map carried = ops := by
  have hsame (op : Op) (hop : op ∈ ops) : carried op = op := by
    cases op with
    | add n => exact congrArg Op.add (Nat.mod_eq_of_lt (h n hop))
    | _ => rfl
  exact (List.map_congr_left hsame).trans (List.map_id ops)

end MachineCode

end TapeLang
