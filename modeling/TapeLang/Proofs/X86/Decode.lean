import TapeLang.X86.Decoder

/-!
# Reading back what was encoded

Every instruction form reads back from its bytes, whatever stands behind them. A form is regular if
its operands have an encoding without displacement: some base registers are taken by other meanings.

* `decode_encode`: a regular instruction reads back, with its size.
* `getElem?_decodeAll`: what is found at each offset of a piece of code.
-/

namespace TapeLang.X86

open LittleEndian

/-! ## Fields -/

theorem Reg.low_lt (r : Reg) : r.low < 8 := by cases r <;> decide

theorem Alu.code_lt (op : Alu) : op.code < 8 := by cases op <;> decide

@[simp] theorem Alu.ofCode?_code (op : Alu) : Alu.ofCode? op.code = some op := by cases op <;> rfl

theorem Operand.ofByte_operandByte {mode reg base : UInt8} (hm : mode < 4) (hr : reg < 8)
    (hb : base < 8) : ofByte (operandByte mode reg base) = ⟨mode, reg, base⟩ := by
  have small : ∀ m : Fin 4, ∀ r b : Fin 8,
      operandByte m.val.toUInt8 r.val.toUInt8 b.val.toUInt8 >>> 6 = m.val.toUInt8 ∧
      operandByte m.val.toUInt8 r.val.toUInt8 b.val.toUInt8 >>> 3 &&& 7 = r.val.toUInt8 ∧
      operandByte m.val.toUInt8 r.val.toUInt8 b.val.toUInt8 &&& 7 = b.val.toUInt8 := by
    decide +kernel
  have := small ⟨mode.toNat, hm⟩ ⟨reg.toNat, hr⟩ ⟨base.toNat, hb⟩
  simp only [UInt8.ofNat_toNat] at this
  rw [ofByte, this.1, this.2.1, this.2.2]

/-- An operand `base + index` that can be encoded. -/
def Mem.Regular (m : Mem) : Prop := m.index ≠ .rsp ∧ m.base.low ≠ 5

instance (m : Mem) : Decidable m.Regular := inferInstanceAs (Decidable (_ ∧ _))

theorem mem?_indexByte {m : Mem} (hm : m.Regular) (isPresent wide regHigh : Bool) (reg : UInt8) :
    mem? ⟨isPresent, wide, regHigh, m.index.isHigh, m.base.isHigh⟩ ⟨0, reg, Mem.indexed⟩
        m.indexByte =
      some m := by
  obtain ⟨base, index⟩ := m
  obtain ⟨hi, hb⟩ := hm
  cases base <;> cases index <;> first | rfl | exact absurd rfl hi | exact absurd rfl hb

/-- The prefix that `prefixByte` writes. -/
def Prefix.ofFields (wide reg index base : Bool) : Prefix :=
  ⟨wide || reg || index || base, wide, reg, index, base⟩

theorem decode_prefixByte (wide reg index base : Bool) {op : UInt8} (h : op &&& 0xF0 ≠ 0x40)
    (rest : List UInt8) :
    decode (prefixByte wide reg index base ++ op :: rest) =
      (decodeAfter (.ofFields wide reg index base) (op :: rest)).map fun (i, n) =>
        (i, n + (prefixByte wide reg index base).length) := by
  have plain : decode (op :: rest) = decodeAfter .none (op :: rest) := by rw [decode, if_neg h]
  cases wide <;> cases reg <;> cases index <;> cases base
  case false.false.false.false =>
    rw [show prefixByte false false false false ++ op :: rest = op :: rest from rfl, plain,
      show Prefix.ofFields false false false false = .none from rfl]
    cases decodeAfter .none (op :: rest) <;> rfl
  all_goals rfl

/-! ## Forms -/

/-- There is an encoding that reads back. -/
def Instr.Regular : Instr → Prop
  | load _ base => base.low ≠ Mem.indexed ∧ base.low ≠ 5
  | store base _ => base.low ≠ Mem.indexed ∧ base.low ≠ 5
  | aluByte _ m _ => m.Regular
  | movByte m _ => m.Regular
  | loadByte _ m => m.Regular
  | storeByte m src => m.Regular ∧ ((src.isHigh || m.index.isHigh || m.base.isHigh) ∨ src.low < 4)
  | lea _ m => m.Regular
  | _ => True

instance : (i : Instr) → Decidable i.Regular
  | .load _ _ | .store _ _ | .storeByte _ _ => inferInstanceAs (Decidable (_ ∧ _))
  | .aluByte _ m _ | .movByte m _ | .loadByte _ m | .lea _ m =>
    inferInstanceAs (Decidable m.Regular)
  | .push _ | .pushImm8 _ | .pop _ | .mov _ _ _ | .movImm32 _ _ | .movSigned32 _ _ | .movImm64 _ _
  | .xor _ _ _ | .test _ _ _ | .alu _ _ _ | .aluImm8 _ _ _ | .jumpShort _ _ | .branch _ _
  | .callReg _ | .ret | .syscall => .isTrue trivial

theorem length_bytes32 (v : UInt32) : (bytes32 v).length = 4 := rfl

theorem size_branch (b : Branch) (d : Int32) : (Instr.branch b d).size = b.opcode.length + 4 :=
  List.length_append

section Forms

variable (rest : List UInt8)

/-- A code with a prefix, an operation code, an operand byte and what belongs to it. -/
theorem decode_operands {wide reg index base : Bool} {op operand : UInt8} {more : List UInt8}
    {o : Operand} {i : Instr} (hp : op &&& 0xF0 ≠ 0x40)
    (hd : ∀ p, decodeAfter p (op :: operand :: (more ++ rest)) =
      (decodeOperands p op (.ofByte operand) (more ++ rest)).map fun (i, n) => (i, n + 2))
    (ho : Operand.ofByte operand = o)
    (hi : decodeOperands (.ofFields wide reg index base) op o (more ++ rest) =
      some (i, more.length)) :
    decode (prefixByte wide reg index base ++ op :: operand :: (more ++ rest)) =
      some (i, (prefixByte wide reg index base).length + (2 + more.length)) := by
  rw [decode_prefixByte wide reg index base hp, hd, ho, hi]
  simp only [Option.map_some, Option.some.injEq, Prod.mk.injEq, true_and]
  omega

theorem decode_onRegisters {w : Width} {op : UInt8} {reg base : Reg} {i : Instr}
    (hp : op &&& 0xF0 ≠ 0x40)
    (hd : ∀ p operand, decodeAfter p (op :: operand :: rest) =
      (decodeOperands p op (.ofByte operand) rest).map fun (i, n) => (i, n + 2))
    (hi : decodeOperands (.ofFields w.isWide reg.isHigh false base.isHigh) op
      ⟨3, reg.low, base.low⟩ rest = some (i, 0)) :
    decode (onRegisters w op reg base ++ rest) = some (i, (onRegisters w op reg base).length) := by
  rw [onRegisters, List.append_assoc, List.length_append]
  exact @decode_operands rest _ _ _ _ _ _ [] _ _ hp (fun p => hd p _)
    (Operand.ofByte_operandByte (by decide) reg.low_lt base.low_lt) hi

theorem decode_onWord {op : UInt8} {reg base : Reg} {i : Instr} (hp : op &&& 0xF0 ≠ 0x40)
    (hd : ∀ p operand, decodeAfter p (op :: operand :: rest) =
      (decodeOperands p op (.ofByte operand) rest).map fun (i, n) => (i, n + 2))
    (hi : decodeOperands (.ofFields true reg.isHigh false base.isHigh) op
      ⟨0, reg.low, base.low⟩ rest = some (i, 0)) :
    decode (onWord op reg base ++ rest) = some (i, (onWord op reg base).length) := by
  rw [onWord, List.append_assoc, List.length_append]
  exact @decode_operands rest _ _ _ _ _ _ [] _ _ hp (fun p => hd p _)
    (Operand.ofByte_operandByte (by decide) reg.low_lt base.low_lt) hi

/-- A code of one byte for an operation on a register and an immediate value. -/
theorem decode_onImmediate {op reg : UInt8} {base : Reg} {more : List UInt8} {i : Instr}
    (hr : reg < 8) (hp : op &&& 0xF0 ≠ 0x40)
    (hd : ∀ p operand, decodeAfter p (op :: operand :: (more ++ rest)) =
      (decodeOperands p op (.ofByte operand) (more ++ rest)).map fun (i, n) => (i, n + 2))
    (hi : decodeOperands (.ofFields true false false base.isHigh) op ⟨3, reg, base.low⟩
      (more ++ rest) = some (i, more.length)) :
    decode (prefixByte true false false base.isHigh ++ [op, operandByte 3 reg base.low] ++ more ++
      rest) = some (i, (prefixByte true false false base.isHigh ++
        [op, operandByte 3 reg base.low] ++ more).length) := by
  simp only [List.append_assoc, List.cons_append, List.nil_append, List.length_append,
    List.length_cons]
  rw [decode_operands rest hp (fun p => hd p _)
    (Operand.ofByte_operandByte (by decide) hr base.low_lt) hi]
  simp only [Option.some.injEq, Prod.mk.injEq, true_and]
  omega

/-- A code of one byte for an operation on a cell, and what belongs to it. -/
theorem decode_onMem {wide high : Bool} {op reg : UInt8} {m : Mem} {more : List UInt8} {i : Instr}
    (hr : reg < 8) (hp : op &&& 0xF0 ≠ 0x40)
    (hd : ∀ p operand, decodeAfter p (op :: operand :: (m.indexByte :: more ++ rest)) =
      (decodeOperands p op (.ofByte operand) (m.indexByte :: more ++ rest)).map fun (i, n) =>
        (i, n + 2))
    (hi : decodeOperands (.ofFields wide high m.index.isHigh m.base.isHigh) op
      ⟨0, reg, Mem.indexed⟩ (m.indexByte :: more ++ rest) = some (i, more.length + 1)) :
    decode (onMem wide high [op] reg m ++ more ++ rest) =
      some (i, (onMem wide high [op] reg m ++ more).length) := by
  simp only [onMem, List.append_assoc, List.cons_append, List.nil_append, List.length_append,
    List.length_cons]
  have := @decode_operands rest _ _ _ _ _ _ (m.indexByte :: more) _ _ hp (fun p => hd p _)
    (Operand.ofByte_operandByte (by decide) hr (show Mem.indexed < 8 by decide)) hi
  simp only [List.cons_append, List.length_cons] at this
  rw [this]
  simp only [Option.some.injEq, Prod.mk.injEq, true_and]
  omega

end Forms

/-! ## All instructions -/

theorem decode_encode_movImm32 (dst : Reg) (v : UInt32) (rest : List UInt8) :
    decode ((Instr.movImm32 dst v).encode ++ rest) =
      some (.movImm32 dst v, (Instr.movImm32 dst v).size) := by
  have hd : decode ((Instr.movImm32 dst v).encode ++ rest) =
      (word32? (bytes32 v ++ rest)).map fun v =>
        (.movImm32 dst v, (Instr.movImm32 dst v).size) := by
    cases dst <;> rfl
  rw [hd, word32?_bytes32]
  rfl

theorem decode_encode_movImm64 (dst : Reg) (v : UInt64) (rest : List UInt8) :
    decode ((Instr.movImm64 dst v).encode ++ rest) =
      some (.movImm64 dst v, (Instr.movImm64 dst v).size) := by
  have hd : decode ((Instr.movImm64 dst v).encode ++ rest) =
      (word64? (bytes64 v ++ rest)).map fun v =>
        (.movImm64 dst v, (Instr.movImm64 dst v).size) := by
    cases dst <;> rfl
  rw [hd, word64?_bytes64]
  rfl

theorem decode_encode_branch (b : Branch) (d : Int32) (rest : List UInt8) :
    decode ((Instr.branch b d).encode ++ rest) =
      some (.branch b d, (Instr.branch b d).size) := by
  have hd : decode ((Instr.branch b d).encode ++ rest) =
      (word32? (bytes32 d.toUInt32 ++ rest)).map fun v =>
        (.branch b v.toInt32, (Instr.branch b d).size) := by
    cases b with
    | call => rfl
    | jump => rfl
    | jumpIf c => cases c <;> rfl
  rw [hd, word32?_bytes32]
  rfl

theorem decode_encode_loadByte {dst : Reg} {m : Mem} (hm : m.Regular) (rest : List UInt8) :
    decode ((Instr.loadByte dst m).encode ++ rest) =
      some (.loadByte dst m, (Instr.loadByte dst m).size) := by
  have hd : decode ((Instr.loadByte dst m).encode ++ rest) =
      (decodeAfter (.ofFields false dst.isHigh m.index.isHigh m.base.isHigh)
        (0x0F :: 0xB6 :: operandByte 0 dst.low Mem.indexed :: m.indexByte :: rest)).map
          fun (i, n) =>
            (i, n + (prefixByte false dst.isHigh m.index.isHigh m.base.isHigh).length) := by
    rw [← decode_prefixByte _ _ _ _ (by decide)]
    simp [Instr.encode, onMem]
  have ho := Operand.ofByte_operandByte (show (0 : UInt8) < 4 by decide) dst.low_lt
    (show Mem.indexed < 8 by decide)
  have hext (p : Prefix) (bytes : List UInt8) : decodeAfter p (0x0F :: 0xB6 :: bytes) =
      (decodeExtended p 0xB6 bytes).map fun (i, n) => (i, n + 2) := rfl
  rw [hd, hext]
  simp [decodeExtended, ho, Prefix.ofFields, mem?_indexByte hm, Reg.ofBits_low, Instr.size,
    Instr.encode, onMem]
  omega

/-- A regular instruction reads back from its bytes. -/
theorem decode_encode {i : Instr} (hi : i.Regular) (rest : List UInt8) :
    decode (i.encode ++ rest) = some (i, i.size) := by
  cases i with
  | push r => cases r <;> rfl
  | pushImm8 v => rfl
  | pop r => cases r <;> rfl
  | mov w dst src =>
    refine decode_onRegisters rest (by decide) (fun _ _ => rfl) ?_
    simp [decodeOperands, Prefix.ofFields, Reg.ofBits_low]
    cases w <;> rfl
  | load dst base =>
    refine decode_onWord rest (by decide) (fun _ _ => rfl) ?_
    simp [decodeOperands, Prefix.ofFields, Reg.ofBits_low, hi.1, hi.2]
  | store base src =>
    refine decode_onWord rest (by decide) (fun _ _ => rfl) ?_
    simp [decodeOperands, Prefix.ofFields, Reg.ofBits_low, hi.1, hi.2]
  | movImm32 dst v => exact decode_encode_movImm32 dst v rest
  | movSigned32 dst v =>
    refine decode_onImmediate rest (by decide) (by decide) (fun _ _ => rfl) ?_
    simp [decodeOperands, Prefix.ofFields, Reg.ofBits_low, word32?_bytes32, length_bytes32]
  | movImm64 dst v => exact decode_encode_movImm64 dst v rest
  | xor w dst src =>
    refine decode_onRegisters rest (by decide) (fun _ _ => rfl) ?_
    simp [decodeOperands, Prefix.ofFields, Reg.ofBits_low]
    cases w <;> rfl
  | test w a b =>
    refine decode_onRegisters rest (by decide) (fun _ _ => rfl) ?_
    simp [decodeOperands, Prefix.ofFields, Reg.ofBits_low]
    cases w <;> rfl
  | alu op dst v =>
    refine decode_onImmediate rest op.code_lt (by decide) (fun _ _ => rfl) ?_
    simp [decodeOperands, Prefix.ofFields, Reg.ofBits_low, word32?_bytes32, length_bytes32]
  | aluImm8 op dst v =>
    refine decode_onImmediate rest op.code_lt (by decide) (fun _ _ => rfl) ?_
    simp [decodeOperands, Prefix.ofFields, Reg.ofBits_low]
  | aluByte op m v =>
    refine decode_onMem rest op.code_lt (by decide) (fun _ _ => rfl) ?_
    simp [decodeOperands, Prefix.ofFields, mem?_indexByte hi]
  | movByte m v =>
    refine decode_onMem rest (by decide) (by decide) (fun _ _ => rfl) ?_
    simp [decodeOperands, Prefix.ofFields, mem?_indexByte hi]
  | loadByte dst m => exact decode_encode_loadByte hi rest
  | storeByte m src =>
    have hi : m.Regular ∧ _ := hi
    have := @decode_onMem rest false src.isHigh 0x88 src.low m [] (.storeByte m src) src.low_lt
      (by decide) (fun _ _ => rfl) (by
        simp [decodeOperands, Prefix.ofFields, Reg.ofBits_low, mem?_indexByte hi.1]
        intro hs hx hb
        simpa [hs, hx, hb] using hi.2)
    rwa [List.append_nil] at this
  | lea dst m =>
    have := @decode_onMem rest true dst.isHigh 0x8D dst.low m [] (.lea dst m) dst.low_lt
      (by decide) (fun _ _ => rfl)
      (by simp [decodeOperands, Prefix.ofFields, Reg.ofBits_low, mem?_indexByte hi])
    rwa [List.append_nil] at this
  | jumpShort c d => cases c <;> rfl
  | branch b d => exact decode_encode_branch b d rest
  | callReg r => cases r <;> rfl
  | ret => rfl
  | syscall => rfl

/-! ## All offsets -/

theorem size_decodeAll (found : Array (Option (Instr × Nat))) (bytes : List UInt8) :
    (decodeAll found bytes).size = found.size + bytes.length := by
  induction bytes generalizing found with
  | nil => rfl
  | cons b rest ih =>
    rw [decodeAll, ih, Array.size_push, List.length_cons]
    omega

theorem getElem?_decodeAll_left {found : Array (Option (Instr × Nat))} (bytes : List UInt8) {k : Nat}
    (hk : k < found.size) : (decodeAll found bytes)[k]? = found[k]? := by
  induction bytes generalizing found with
  | nil => rfl
  | cons b rest ih =>
    rw [decodeAll, ih (by rw [Array.size_push]; omega), Array.getElem?_push_lt hk,
      Array.getElem?_eq_getElem hk]

theorem getElem?_decodeAll (found : Array (Option (Instr × Nat))) {bytes : List UInt8} {k : Nat}
    (hk : k < bytes.length) :
    (decodeAll found bytes)[found.size + k]? = some (decode (bytes.drop k)) := by
  induction bytes generalizing found k with
  | nil => cases hk
  | cons b rest ih =>
    rw [decodeAll]
    cases k with
    | zero =>
      rw [Nat.add_zero, getElem?_decodeAll_left rest (by rw [Array.size_push]; omega),
        Array.getElem?_push_size, List.drop_zero]
    | succ k =>
      have := @ih (found.push (decode (b :: rest))) k (Nat.lt_of_succ_lt_succ hk)
      rwa [Array.size_push, Nat.add_right_comm, Nat.add_assoc] at this

end TapeLang.X86
