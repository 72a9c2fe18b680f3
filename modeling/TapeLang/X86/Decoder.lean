import TapeLang.X86.Instr

/-!
# Reading machine code

`decode` reads the instruction at the start of a byte list, if it has one of the forms of `Instr`,
and says how many bytes it takes.
-/

namespace TapeLang.X86

open LittleEndian

/-- What a prefix byte says. -/
structure Prefix where
  isPresent : Bool
  wide : Bool
  reg : Bool
  index : Bool
  base : Bool

namespace Prefix

def none : Prefix := ⟨false, false, false, false, false⟩

def ofByte (b : UInt8) : Prefix :=
  ⟨true, b &&& 8 != 0, b &&& 4 != 0, b &&& 2 != 0, b &&& 1 != 0⟩

def width (p : Prefix) : Width := if p.wide then .qword else .dword

end Prefix

/-- The fields of an operand byte. -/
structure Operand where
  mode : UInt8
  reg : UInt8
  base : UInt8

def Operand.ofByte (b : UInt8) : Operand := ⟨b >>> 6, b >>> 3 &&& 7, b &&& 7⟩

def Alu.ofCode? (n : UInt8) : Option Alu :=
  if n = 0 then some add
  else if n = 4 then some and
  else if n = 5 then some sub
  else if n = 7 then some cmp
  else none

def Cond.ofCode? (n : UInt8) : Option Cond :=
  if n = 0x2 then some below
  else if n = 0x4 then some equal
  else if n = 0x5 then some notEqual
  else if n = 0x8 then some sign
  else if n = 0xE then some lessEqual
  else none

/-- The memory operand of an operand byte and an index byte. Scaled indices, a missing index and
displacements are not read. -/
def mem? (p : Prefix) (o : Operand) (indexByte : UInt8) : Option Mem :=
  let base := indexByte &&& 7
  let index := Reg.ofBits p.index (indexByte >>> 3)
  if o.mode = 0 ∧ o.base = Mem.indexed ∧ indexByte < 64 ∧ base ≠ 5 ∧ index ≠ .rsp then
    some ⟨.ofBits p.base base, index⟩
  else none

/-- An instruction with an operand byte `o` and what follows it, and the number of the following
bytes it takes. -/
def decodeOperands (p : Prefix) (op : UInt8) (o : Operand) (rest : List UInt8) :
    Option (Instr × Nat) :=
  let reg := Reg.ofBits p.reg o.reg
  let base := Reg.ofBits p.base o.base
  let plain := o.mode = 0 ∧ o.base ≠ Mem.indexed ∧ o.base ≠ 5
  if op = 0x89 then
    if o.mode = 3 then some (.mov p.width base reg, 0)
    else if plain ∧ p.wide then some (.store base reg, 0)
    else none
  else if op = 0x8B then
    if plain ∧ p.wide then some (.load reg base, 0) else none
  else if op = 0x31 then
    if o.mode = 3 then some (.xor p.width base reg, 0) else none
  else if op = 0x85 then
    if o.mode = 3 then some (.test p.width base reg, 0) else none
  else if op = 0xC7 then do
    let v ← word32? rest
    if o.mode = 3 ∧ o.reg = 0 ∧ p.wide then some (.movSigned32 base v.toInt32, 4) else none
  else if op = 0x81 then do
    let alu ← Alu.ofCode? o.reg
    let v ← word32? rest
    if o.mode = 3 ∧ p.wide then some (.alu alu base v.toInt32, 4) else none
  else if op = 0x83 then do
    let alu ← Alu.ofCode? o.reg
    let v ← rest.head?
    if o.mode = 3 ∧ p.wide then some (.aluImm8 alu base v.toInt8, 1) else none
  else if op = 0x80 then
    match rest with
    | index :: v :: _ => do
      let alu ← Alu.ofCode? o.reg
      let m ← mem? p o index
      some (.aluByte alu m v, 2)
    | _ => none
  else if op = 0xC6 then
    match rest with
    | index :: v :: _ => do
      let m ← mem? p o index
      if o.reg = 0 then some (.movByte m v, 2) else none
    | _ => none
  else if op = 0x88 then do
    let m ← mem? p o (← rest.head?)
    if p.isPresent ∨ o.reg < 4 then some (.storeByte m reg, 1) else none
  else if op = 0x8D then do
    let m ← mem? p o (← rest.head?)
    if p.wide then some (.lea reg m, 1) else none
  else if op = 0xFF then
    if o.mode = 3 ∧ o.reg = 2 then some (.callReg base, 0) else none
  else none

/-- An instruction whose code begins with `0x0F` and `op`, and the number of the following bytes it
takes. -/
def decodeExtended (p : Prefix) (op : UInt8) (rest : List UInt8) : Option (Instr × Nat) :=
  if op = 0x05 then some (.syscall, 0)
  else if op = 0xB6 then
    match rest with
    | operand :: index :: _ => do
      let o := Operand.ofByte operand
      let m ← mem? p o index
      if p.wide then none else some (.loadByte (.ofBits p.reg o.reg) m, 2)
    | _ => none
  else if op &&& 0xF0 = 0x80 then do
    let c ← Cond.ofCode? (op &&& 0x0F)
    let d ← word32? rest
    some (.branch (.jumpIf c) d.toInt32, 4)
  else none

/-- An instruction after its prefix byte, and the number of bytes it takes. -/
def decodeAfter (p : Prefix) : List UInt8 → Option (Instr × Nat)
  | [] => none
  | op :: rest =>
    let reg := Reg.ofBits p.base op
    if op &&& 0xF8 = 0x50 then some (.push reg, 1)
    else if op &&& 0xF8 = 0x58 then some (.pop reg, 1)
    else if op &&& 0xF8 = 0xB8 then
      if p.wide then do some (.movImm64 reg (← word64? rest), 9)
      else do some (.movImm32 reg (← word32? rest), 5)
    else if op = 0xC3 then some (.ret, 1)
    else if op = 0x6A then do some (.pushImm8 (← rest.head?).toInt8, 2)
    else if op = 0xE8 then do some (.branch .call (← word32? rest).toInt32, 5)
    else if op = 0xE9 then do some (.branch .jump (← word32? rest).toInt32, 5)
    else if op &&& 0xF0 = 0x70 then do
      some (.jumpShort (← Cond.ofCode? (op &&& 0x0F)) (← rest.head?).toInt8, 2)
    else
      match rest with
      | [] => none
      | operand :: rest =>
        if op = 0x0F then (decodeExtended p operand rest).map fun (i, n) => (i, n + 2)
        else (decodeOperands p op (.ofByte operand) rest).map fun (i, n) => (i, n + 2)

/-- The instruction at the start of the bytes, and its length. -/
def decode : List UInt8 → Option (Instr × Nat)
  | [] => none
  | b :: rest =>
    if b &&& 0xF0 = 0x40 then (decodeAfter (.ofByte b) rest).map fun (i, n) => (i, n + 1)
    else decodeAfter .none (b :: rest)

/-- The instructions at every offset of `bytes`, behind those in `found`. -/
def decodeAll (found : Array (Option (Instr × Nat))) (bytes : List UInt8) :
    Array (Option (Instr × Nat)) :=
  match bytes with
  | [] => found
  | b :: rest => decodeAll (found.push (decode (b :: rest))) rest

end TapeLang.X86
