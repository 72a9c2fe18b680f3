import TapeLang.Proofs.X86.Memory
import TapeLang.X86.Cpu

/-!
# Straight code

What instructions do that neither jump nor call: each leaves the instruction pointer behind itself, so
that a list of them is carried out from front to back.

* `Cpu.follow`: carry out a list of instructions.
* `Cpu.ip_follow`: straight code ends right behind itself.
* `signed32_ofNat`: small immediate values are what they stand for.
* `negative32_iff`, `negative64_iff`: what the sign flag says.
-/

namespace TapeLang.X86

/-! ## Immediate values -/

theorem toNat_signed32 (v : Int32) : (signed32 v).toNat = (v.toInt % 2 ^ 64).toNat := by
  rw [signed32, ← UInt64.toNat_toBitVec, Int64.toBitVec_toUInt64, Int32.toBitVec_toInt64,
    BitVec.signExtend, BitVec.toNat_ofInt, Int32.toInt]
  rfl

theorem signed32_ofNat {n : Nat} (h : n < 2 ^ 31) : signed32 n.toUInt32.toInt32 = n.toUInt64 := by
  apply UInt64.toNat_inj.mp
  rw [toNat_signed32]
  have hn : n.toUInt32.toInt32.toInt = n := by
    rw [Int32.toInt, UInt32.toBitVec_toInt32, BitVec.toInt_eq_toNat_of_lt]
    · simp
      omega
    · simp
      omega
  rw [hn]
  simp
  omega

/-! ## Signs -/

theorem and_two_pow_eq_zero_iff {n i : Nat} (h : n < 2 ^ (i + 1)) : n &&& 2 ^ i = 0 ↔ n < 2 ^ i := by
  constructor
  · intro hz
    apply Nat.lt_of_not_le
    intro hle
    have hbit := Nat.testBit_of_two_pow_le_and_two_pow_add_one_gt hle h
    have := congrArg (Nat.testBit · i) hz
    simp [Nat.testBit_and, hbit] at this
  · intro hlt
    apply Nat.eq_of_testBit_eq
    intro j
    rw [Nat.testBit_and, Nat.testBit_two_pow]
    by_cases hj : i = j
    · subst hj
      simp [Nat.testBit_lt_two_pow hlt]
    · simp [hj]

theorem negative32_iff (v : UInt32) : negative32 v ↔ 2 ^ 31 ≤ v.toNat := by
  have h := and_two_pow_eq_zero_iff (i := 31) v.toNat_lt
  rw [negative32, bne_iff_ne, ne_eq, ← UInt32.toNat_inj, UInt32.toNat_and, ← Nat.not_lt]
  exact not_congr h

theorem negative64_iff (v : UInt64) : negative64 v ↔ 2 ^ 63 ≤ v.toNat := by
  have h := and_two_pow_eq_zero_iff (i := 63) v.toNat_lt
  rw [negative64, bne_iff_ne, ne_eq, ← UInt64.toNat_inj, UInt64.toNat_and, ← Nat.not_lt]
  exact not_congr h

namespace Cpu

variable (c : Cpu)

/-! ## Registers, flags and memory

Not one of these is left to unfolding: two processors must never be compared part by part. -/

theorem get_set (r q : Reg) (v : UInt64) : (c.set r v).get q = if q = r then v else c.get q := by
  split
  case isTrue h =>
    subst h
    exact Registers.get_set_self c.regs q v
  case isFalse h => exact Registers.get_set_ne c.regs h v

/-- The registers that belong to the caller are not touched by setting another one. -/
theorem get_set_of_saved {r q : Reg} (hq : q.isCalleeSaved) (v : UInt64)
    (hr : r.isCalleeSaved = false) : (c.set r v).get q = c.get q := by
  rw [get_set, if_neg]
  rintro rfl
  rw [hq] at hr
  cases hr

@[simp] theorem get_setFlags (f : Flags) (q : Reg) : (c.setFlags f).get q = c.get q := by
  cases c; rfl

@[simp] theorem get_skip (n : UInt64) (q : Reg) : (c.skip n).get q = c.get q := by cases c; rfl

@[simp] theorem get_jump (a : UInt64) (q : Reg) : (c.jump a).get q = c.get q := by cases c; rfl

@[simp] theorem get_store (a : UInt64) (v : UInt8) (q : Reg) : (c.store a v).get q = c.get q := by
  cases c; rfl

@[simp] theorem memory_set (r : Reg) (v : UInt64) : (c.set r v).memory = c.memory := by cases c; rfl

@[simp] theorem memory_setFlags (f : Flags) : (c.setFlags f).memory = c.memory := by cases c; rfl

@[simp] theorem memory_skip (n : UInt64) : (c.skip n).memory = c.memory := by cases c; rfl

@[simp] theorem memory_jump (a : UInt64) : (c.jump a).memory = c.memory := by cases c; rfl

@[simp] theorem memory_store (a : UInt64) (v : UInt8) :
    (c.store a v).memory = c.memory.store a v := by cases c; rfl

@[simp] theorem flags_set (r : Reg) (v : UInt64) : (c.set r v).flags = c.flags := by cases c; rfl

@[simp] theorem flags_setFlags (f : Flags) : (c.setFlags f).flags = f := by cases c; rfl

@[simp] theorem flags_skip (n : UInt64) : (c.skip n).flags = c.flags := by cases c; rfl

@[simp] theorem ip_set (r : Reg) (v : UInt64) : (c.set r v).ip = c.ip := by cases c; rfl

@[simp] theorem ip_setFlags (f : Flags) : (c.setFlags f).ip = c.ip := by cases c; rfl

@[simp] theorem ip_store (a : UInt64) (v : UInt8) : (c.store a v).ip = c.ip := by cases c; rfl

@[simp] theorem ip_skip (n : UInt64) : (c.skip n).ip = c.ip + n := by cases c; rfl

@[simp] theorem ip_jump (a : UInt64) : (c.jump a).ip = a := by cases c; rfl

end Cpu

/-- An instruction behind which its successor is carried out. -/
def Instr.IsStraight : Instr → Bool
  | jumpShort _ _ | branch _ _ | callReg _ | ret | syscall => false
  | _ => true

namespace Cpu

variable {c c' : Cpu}

theorem storeWord_eq (c : Cpu) (a v : UInt64) :
    c.storeWord a v =
      if c.memory.coversWord a then .running { c with memory := c.memory.storeWord a v }
      else .crashed (.badAccess a) := rfl

theorem ip_storeWord {a v : UInt64} (h : c.storeWord a v = .running c') : c'.ip = c.ip := by
  rw [storeWord_eq] at h
  split at h
  · cases h
    rfl
  · cases h

theorem ip_push (v : UInt64) (h : c.push v = .running c') : c'.ip = c.ip := by
  unfold push at h
  have := ip_storeWord h
  exact this

theorem ip_calculate (c : Cpu) (op : Alu) (r : Reg) (v : UInt64) :
    (c.calculate op r v).ip = c.ip := by
  unfold calculate
  dsimp only
  split <;> rfl

theorem ip_calculateByte (c : Cpu) (op : Alu) (a : UInt64) (v : UInt8) :
    (c.calculateByte op a v).ip = c.ip := by
  unfold calculateByte
  dsimp only
  split <;> rfl

theorem ip_execute {i : Instr} (hi : i.IsStraight) (h : c.execute i = .running c') :
    c'.ip = c.ip := by
  cases i with
  | push r => exact ip_push (c.get r) h
  | pushImm8 v => exact ip_push (signed8 v) h
  | pop r =>
    simp only [execute, pop] at h
    split at h
    · cases h
      rfl
    · cases h
  | mov w dst src => cases w <;> cases h <;> rfl
  | load dst base =>
    simp only [execute] at h
    split at h
    · cases h
      rfl
    · cases h
  | store base src => exact ip_storeWord h
  | movImm32 dst v | movSigned32 dst v | movImm64 dst v | lea dst m =>
    cases h
    rfl
  | xor w dst src => cases w <;> cases h <;> rfl
  | test w a b => cases w <;> cases h <;> rfl
  | alu op dst v =>
    cases h
    exact ip_calculate c op dst _
  | aluImm8 op dst v =>
    cases h
    exact ip_calculate c op dst _
  | aluByte op m v =>
    simp only [execute] at h
    split at h
    · cases h
      exact ip_calculateByte c op _ v
    · cases h
  | movByte m v | storeByte m src | loadByte dst m =>
    simp only [execute] at h
    split at h
    · cases h
      rfl
    · cases h
  | jumpShort | branch | callReg | ret | syscall => cases hi

end Cpu

@[simp] theorem codeSize_nil : codeSize [] = 0 := rfl

@[simp] theorem codeSize_cons (i : Instr) (code : List Instr) :
    codeSize (i :: code) = i.size + codeSize code := rfl

@[simp] theorem codeSize_append (code more : List Instr) :
    codeSize (code ++ more) = codeSize code + codeSize more := by
  induction code with
  | nil => exact (Nat.zero_add _).symm
  | cons i code ih => rw [List.cons_append, codeSize_cons, codeSize_cons, ih, Nat.add_assoc]

namespace Cpu

variable {c c' : Cpu}

/-- Carry out instructions one behind the other. -/
def follow (c : Cpu) : List Instr → Outcome
  | [] => .running c
  | i :: rest =>
    match (c.skip i.size.toUInt64).execute i with
    | .running c => c.follow rest
    | other => other

theorem follow_cons {i : Instr} (h : (c.skip i.size.toUInt64).execute i = .running c')
    (rest : List Instr) : c.follow (i :: rest) = c'.follow rest := by
  rw [follow, h]

theorem follow_append (c : Cpu) (code more : List Instr) :
    c.follow (code ++ more) =
      match c.follow code with
      | .running c => c.follow more
      | other => other := by
  induction code generalizing c with
  | nil => rfl
  | cons i rest ih =>
    simp only [List.cons_append, follow]
    cases (c.skip i.size.toUInt64).execute i with
    | running c => exact ih c
    | systemCall c => rfl
    | crashed reason => rfl

theorem ip_follow {code : List Instr} (hs : ∀ i ∈ code, i.IsStraight)
    (h : c.follow code = .running c') : c'.ip = c.ip + (codeSize code).toUInt64 := by
  induction code generalizing c with
  | nil =>
    cases h
    simp
  | cons i rest ih =>
    unfold follow at h
    split at h
    case h_1 c₁ he =>
      have hip := ip_execute (hs i (List.mem_cons_self ..)) he
      rw [ih (fun j hj => hs j (List.mem_cons_of_mem i hj)) h, hip, ip_skip, UInt64.add_assoc,
        ← UInt64.ofNat_add]
      rfl
    case h_2 hne => exact absurd h (hne c')

end Cpu

end TapeLang.X86
