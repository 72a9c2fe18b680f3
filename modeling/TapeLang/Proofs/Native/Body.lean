import TapeLang.Proofs.Native.Machine
import TapeLang.Proofs.Tree.LabelCode
import TapeLang.Proofs.Tree.Simulation

/-!
# The body of a routine

Between its prologue and its epilogue a routine keeps the tape in memory and the pointer in a
register, and leaves alone what it needs to get back: the registers that belong to its caller, the
shape of the memory, and what its prologue has put on the stack.

* `Ground`: what there is when the body starts. `Within`: what holds in the middle of it.
* `reaches_move`, `reaches_add`, `reaches_reset`, `tests_branch`, `connects_jump`: what the code of
  each operation does, transfers excepted.
-/

namespace TapeLang.Native

open X86

/-- Room for one more word on the stack. -/
def below (s : Cpu) : Span := ⟨s.get .rsp - 8, 8⟩

/-- What the prologue has saved, and the return address above. -/
def savedSpan (s : Cpu) : Span := ⟨s.get .rsp, 48⟩

def tapeSpan (s : Cpu) (length : Nat) : Span := ⟨s.get .rbx, length⟩

/-- At the start of a body there is a tape of `length` cells, apart from the stack. -/
structure Ground (s : Cpu) (length : Nat) : Prop where
  length_le : length ≤ maxTapeLength
  tape : s.memory.Covers (tapeSpan s length)
  stack : s.memory.Covers (below s)
  apart_below : (tapeSpan s length).Apart (below s)
  apart_saved : (tapeSpan s length).Apart (savedSpan s)

/-- In a body that was started in `s`, with `tape` as the tape. -/
structure Within (s : Cpu) (length : Nat) (tape : Tape) (c : Cpu) : Prop where
  length_eq : tape.length = length
  pointer : c.get .r12 = tape.pointer.toUInt64
  saved : ∀ q : Reg, q.isCalleeSaved → q ≠ .r12 → c.get q = s.get q
  shape : c.memory.shape = s.memory.shape
  carries : c.memory.Carries (s.get .rbx) tape.cells
  kept : ∀ x, (savedSpan s).Has x → c.memory.load x = s.memory.load x

namespace Within

variable {s c c' : Cpu} {length : Nat} {tape : Tape}

theorem pointer_lt (h : Within s length tape c) : tape.pointer < length :=
  h.length_eq ▸ tape.pointer_lt

theorem address_cell (h : Within s length tape c) :
    c.address Block.cell = s.get .rbx + tape.pointer.toUInt64 := by
  rw [Cpu.address, Block.cell, h.pointer, h.saved .rbx rfl nofun]

theorem covers_cell (h : Within s length tape c) (hg : Ground s length) :
    c.memory.covers (c.address Block.cell) := by
  have := hg.length_le
  rw [h.address_cell, Memory.covers_of_shape h.shape]
  exact hg.tape _ (Span.has_add h.pointer_lt (by unfold maxTapeLength at this; omega))

theorem load_cell (h : Within s length tape c) (hg : Ground s length) :
    c.load (c.address Block.cell) = tape.get := by
  have := hg.length_le
  have := h.pointer_lt
  rw [h.address_cell]
  exact h.carries.load_add tape.pointer_lt (by unfold maxTapeLength at *; omega)

/-- Neither the tape nor what was saved has changed. -/
theorem congr (h : Within s length tape c) (hm : c'.memory.shape = c.memory.shape)
    (ht : ∀ x, (tapeSpan s length).Has x → c'.memory.load x = c.memory.load x)
    (hk : ∀ x, (savedSpan s).Has x → c'.memory.load x = c.memory.load x)
    (hs : ∀ q : Reg, q.isCalleeSaved → c'.get q = c.get q) : Within s length tape c' where
  length_eq := h.length_eq
  pointer := (hs .r12 rfl).trans h.pointer
  saved q hq hne := (hs q hq).trans (h.saved q hq hne)
  shape := hm.trans h.shape
  carries := h.carries.congr fun x hx => ht x (show _ < _ from h.length_eq ▸ hx)
  kept x hx := (hk x hx).trans (h.kept x hx)

/-- Only registers that nobody relies on have changed. -/
theorem of_regs (h : Within s length tape c) (hm : c'.memory = c.memory)
    (hs : ∀ q : Reg, q.isCalleeSaved → c'.get q = c.get q) : Within s length tape c' :=
  h.congr (congrArg _ hm) (fun _ _ => by rw [hm]) (fun _ _ => by rw [hm]) hs

theorem advance (h : Within s length tape c) {n : Nat} (hm : c'.memory = c.memory)
    (hs : ∀ q : Reg, q.isCalleeSaved → q ≠ .r12 → c'.get q = c.get q)
    (hp : (c'.get .r12).toNat = (tape.pointer + n) % length) :
    Within s length (tape.advance n) c' where
  length_eq := by rw [tape.length_advance, h.length_eq]
  pointer := by
    have := c'.get .r12 |>.toNat_lt
    rw [tape.pointer_advance, h.length_eq, ← hp]
    exact (UInt64.ofNat_toNat).symm
  saved q hq hne := (hs q hq hne).trans (h.saved q hq hne)
  shape := by rw [hm, h.shape]
  carries := by
    rw [hm, tape.cells_advance]
    exact h.carries
  kept := hm ▸ h.kept

theorem store (h : Within s length tape c) (hg : Ground s length) {v : UInt8}
    (hm : c'.memory = c.memory.store (c.address Block.cell) v)
    (hs : ∀ q : Reg, q.isCalleeSaved → c'.get q = c.get q) :
    Within s length (tape.set v) c' where
  length_eq := (tape.length_set v).trans h.length_eq
  pointer := by rw [hs .r12 rfl, h.pointer, tape.pointer_set]
  saved q hq hne := (hs q hq).trans (h.saved q hq hne)
  shape := by rw [hm, Memory.shape_store, h.shape]
  carries := by
    have hlt := h.pointer_lt
    have hle := hg.length_le
    have hc := h.covers_cell hg
    rw [h.address_cell] at hc hm
    rw [hm]
    exact h.carries.store (by unfold maxTapeLength at hle; omega) hc v
  kept x hk := by
    have hle := hg.length_le
    have hx : x ≠ c.address Block.cell := by
      rintro rfl
      rw [h.address_cell] at hk
      exact hg.apart_saved _
        (Span.has_add h.pointer_lt (by unfold maxTapeLength at hle; omega)) hk
    rw [hm, Memory.load_store_of_ne _ hx, h.kept x hk]

end Within

/-! ## Places -/

/-- The machine is at offset `k` of its text, within a body. -/
def At {S : Type} (text : Text) (inj : Cpu → S) (s : Cpu) (length : Nat) (k : Nat) (tape : Tape)
    (state : S) : Prop :=
  ∃ c, state = inj c ∧ c.ip = text.address k ∧ Within s length tape c

section Blocks

variable {I : Interface} {S R σ : Type} {step : S → Action I S R} {d : Device I σ} {text : Text}
  {inj : Cpu → S} {place : Target → Nat} {s : Cpu} {length k : Nat} {tape tape' : Tape} {c c' : Cpu}

/-- Straight code from one place to the next. -/
theorem reaches_at (hr : Drives step text inj) {code : List Instr}
    (hc : text.HasAt place k (Block.plain code)) (hs : ∀ i ∈ code, i.IsStraight)
    (hip : c.ip = text.address k) (hf : c.follow code = .running c')
    (hw : Within s length tape' c') (w : σ) :
    ∃ n state, Reaches step d n (inj c) w state w ∧
      At text inj s length (k + codeSize code) tape' state := by
  obtain ⟨hreach, hip'⟩ := exists_follow (d := d) hr hc hs hip hf w
  exact ⟨_, _, hreach, c', rfl, hip', hw⟩

/-! ## Moves -/

/-- The sum does not wrap in the register. -/
theorem follow_sum (c : Cpu) {n length : Nat} (hn : n < length) (hl : length ≤ maxTapeLength)
    {p : Nat} (hp : p < length) (hc : c.get .r12 = p.toUInt64) :
    ∃ c', c.follow [.alu .add .r12 n.toUInt32.toInt32] = .running c' ∧
      (c'.get .r12).toNat = p + n := by
  unfold maxTapeLength at hl
  refine ⟨_, rfl, ?_⟩
  have hsum : (p.toUInt64 + n.toUInt64).toNat = p + n := by simp; omega
  simp only [Cpu.calculate, Alu.stores, Cpu.get_set, Cpu.get_skip, Cpu.get_setFlags, if_true,
    Alu.result64, hc, signed32_ofNat (show n < 2 ^ 31 by omega), hsum]

theorem follow_mask (c : Cpu) {n length : Nat} (hn : n < length) (hl : length ≤ maxTapeLength)
    (hpow : 2 ^ length.log2 = length) {p : Nat} (hp : p < length)
    (hc : c.get .r12 = p.toUInt64) :
    ∃ c', c.follow [.alu .add .r12 n.toUInt32.toInt32,
        .alu .and .r12 (length - 1).toUInt32.toInt32] = .running c' ∧
      c'.memory = c.memory ∧ (∀ q : Reg, q ≠ .r12 → c'.get q = c.get q) ∧
      (c'.get .r12).toNat = (p + n) % length := by
  unfold maxTapeLength at hl
  refine ⟨_, rfl, rfl, fun q hq => ?_, ?_⟩
  · simp [Cpu.calculate, Alu.stores, Cpu.get_set, hq]
  · have hsum : (p.toUInt64 + n.toUInt64).toNat = p + n := by simp; omega
    have hmask : ((length - 1).toUInt64).toNat = 2 ^ length.log2 - 1 := by
      rw [hpow]
      simp
      omega
    simp only [Cpu.calculate, Alu.stores, Cpu.get_set, Cpu.get_skip, Cpu.get_setFlags, if_true,
      Alu.result64, hc, signed32_ofNat (show n < 2 ^ 31 by omega),
      signed32_ofNat (show length - 1 < 2 ^ 31 by omega)]
    rw [UInt64.toNat_and, hsum, hmask, Nat.and_two_pow_sub_one_eq_mod, hpow]

theorem follow_compare (c : Cpu) {n length : Nat} (hn : n < length) (hl : length ≤ maxTapeLength)
    {p : Nat} (hp : p < length) (hc : c.get .r12 = p.toUInt64) :
    ∃ c', c.follow [.alu .add .r12 n.toUInt32.toInt32, .alu .cmp .r12 length.toUInt32.toInt32] =
        .running c' ∧
      c'.memory = c.memory ∧ (∀ q : Reg, q ≠ .r12 → c'.get q = c.get q) ∧
      (c'.get .r12).toNat = p + n ∧ c'.flags.holds .below = decide (p + n < length) := by
  unfold maxTapeLength at hl
  have hsum : (p.toUInt64 + n.toUInt64).toNat = p + n := by simp; omega
  have hlength : length.toUInt64.toNat = length := by simp; omega
  refine ⟨_, rfl, rfl, fun q hq => ?_, ?_, ?_⟩
  · simp [Cpu.calculate, Alu.stores, Cpu.get_set, hq]
  · simp only [Cpu.calculate, Alu.stores, Cpu.get_set, Cpu.get_skip, Cpu.get_setFlags, if_true,
      if_false, Bool.false_eq_true, Alu.result64, hc, signed32_ofNat (show n < 2 ^ 31 by omega),
      hsum]
  · simp only [Cpu.calculate, Alu.stores, Cpu.get_set, Cpu.get_skip, Cpu.get_setFlags, if_true,
      if_false, Bool.false_eq_true, Alu.result64, Alu.flags64, hc, Cpu.flags_setFlags,
      Flags.holds, Flags.carry_of, signed32_ofNat (show n < 2 ^ 31 by omega),
      signed32_ofNat (show length < 2 ^ 31 by omega), UInt64.lt_iff_toNat_lt, hsum, hlength]

theorem follow_subtract (c : Cpu) {length : Nat} (hl : length ≤ maxTapeLength) {q : Nat}
    (hq : length ≤ q) (hc : (c.get .r12).toNat = q) :
    ∃ c', c.follow [.alu .sub .r12 length.toUInt32.toInt32] = .running c' ∧
      c'.memory = c.memory ∧ (∀ q : Reg, q ≠ .r12 → c'.get q = c.get q) ∧
      (c'.get .r12).toNat = q - length := by
  unfold maxTapeLength at hl
  refine ⟨_, rfl, rfl, fun q hq => ?_, ?_⟩
  · simp [Cpu.calculate, Alu.stores, Cpu.get_set, hq]
  · have hlength : length.toUInt64.toNat = length := by simp; omega
    simp only [Cpu.calculate, Alu.stores, Cpu.get_set, Cpu.get_skip, Cpu.get_setFlags, if_true,
      Alu.result64, signed32_ofNat (show length < 2 ^ 31 by omega)]
    rw [UInt64.toNat_sub_of_le _ _ (by rw [UInt64.le_iff_toNat_le, hlength]; omega), hc, hlength]

/-! ## The current cell -/

theorem address_skip (c : Cpu) (n : UInt64) (m : Mem) : (c.skip n).address m = c.address m := by
  simp [Cpu.address]

theorem follow_addCell (hg : Ground s length) (hw : Within s length tape c) (v : UInt8) :
    ∃ c', c.follow [.aluByte .add Block.cell v] = .running c' ∧
      c'.memory = c.memory.store (c.address Block.cell) (tape.get + v) ∧
      ∀ q : Reg, c'.get q = c.get q := by
  have hc := hw.covers_cell hg
  refine ⟨(c.skip (Instr.aluByte .add Block.cell v).size.toUInt64).calculateByte .add
    (c.address Block.cell) v, ?_, ?_, fun q => ?_⟩
  · simp only [Cpu.follow, Cpu.execute, address_skip, Cpu.covers, Cpu.memory_skip, if_pos hc]
  · have hload : (c.skip (Instr.aluByte .add Block.cell v).size.toUInt64).load
        (c.address Block.cell) = tape.get := by
      rw [Cpu.load, Cpu.memory_skip]
      exact hw.load_cell hg
    simp only [Cpu.calculateByte, hload, Alu.stores, if_true, Cpu.memory_store,
      Cpu.memory_setFlags, Cpu.memory_skip, Alu.result8]
  · simp [Cpu.calculateByte, Alu.stores]

theorem follow_clearCell (hg : Ground s length) (hw : Within s length tape c) (v : UInt8) :
    ∃ c', c.follow [.movByte Block.cell v] = .running c' ∧
      c'.memory = c.memory.store (c.address Block.cell) v ∧ ∀ q : Reg, c'.get q = c.get q := by
  have hc := hw.covers_cell hg
  refine ⟨(c.skip (Instr.movByte Block.cell v).size.toUInt64).store (c.address Block.cell) v, ?_,
    by simp, by simp⟩
  simp only [Cpu.follow, Cpu.execute, address_skip, Cpu.covers, Cpu.memory_skip, if_pos hc]

theorem follow_testCell (hg : Ground s length) (hw : Within s length tape c) :
    ∃ c', c.follow [.aluByte .cmp Block.cell 0] = .running c' ∧ c'.memory = c.memory ∧
      (∀ q : Reg, c'.get q = c.get q) ∧ c'.flags.holds .equal = decide (tape.get = 0) := by
  have hc := hw.covers_cell hg
  have hload : (c.skip (Instr.aluByte .cmp Block.cell 0).size.toUInt64).load
      (c.address Block.cell) = tape.get := by
    rw [Cpu.load, Cpu.memory_skip]
    exact hw.load_cell hg
  refine ⟨(c.skip (Instr.aluByte .cmp Block.cell 0).size.toUInt64).calculateByte .cmp
    (c.address Block.cell) 0, ?_, ?_, fun q => ?_, ?_⟩
  · simp only [Cpu.follow, Cpu.execute, address_skip, Cpu.covers, Cpu.memory_skip, if_pos hc]
  · simp [Cpu.calculateByte, Alu.stores]
  · simp [Cpu.calculateByte, Alu.stores]
  · simp [Cpu.calculateByte, Alu.stores, hload, Alu.flags8, Alu.result8, Flags.holds]
    rfl

theorem follow_loadCell (hg : Ground s length) (hw : Within s length tape c) (r : Reg) :
    ∃ c', c.follow [.loadByte r Block.cell] = .running c' ∧ c'.memory = c.memory ∧
      c'.get r = tape.get.toUInt64 ∧ ∀ q : Reg, q ≠ r → c'.get q = c.get q := by
  have hc := hw.covers_cell hg
  have hload := hw.load_cell hg
  refine ⟨(c.skip (Instr.loadByte r Block.cell).size.toUInt64).set r tape.get.toUInt64, ?_,
    by simp, by simp [Cpu.get_set], fun q hq => by simp [Cpu.get_set, hq]⟩
  simp only [Cpu.follow, Cpu.execute, address_skip, Cpu.covers, Cpu.load, Cpu.memory_skip, if_pos hc]
  rw [Cpu.load] at hload
  rw [hload]

theorem follow_storeCell (hg : Ground s length) (hw : Within s length tape c) (r : Reg) :
    ∃ c', c.follow [.storeByte Block.cell r] = .running c' ∧
      c'.memory = c.memory.store (c.address Block.cell) (c.get r).toUInt8 ∧
      ∀ q : Reg, c'.get q = c.get q := by
  have hc := hw.covers_cell hg
  refine ⟨(c.skip (Instr.storeByte Block.cell r).size.toUInt64).store (c.address Block.cell)
    (c.get r).toUInt8, ?_, by simp, by simp⟩
  simp only [Cpu.follow, Cpu.execute, address_skip, Cpu.covers, Cpu.memory_skip, Cpu.get_skip,
    if_pos hc]

section Silent

variable (hr : Drives step text inj) (hg : Ground s length)
include hr hg

omit hg in
/-- The code of a move, seen from the register of the pointer alone. -/
theorem exists_moved {n p : Nat} (hn : n < length) (hp : p < length) {wrap : Wrap}
    (hwrap : Wrap.ofTapeLength length = .ok wrap)
    (hc : text.HasAt place k (Block.move n.toUInt32 wrap)) (hpointer : c.get .r12 = p.toUInt64)
    (hip : c.ip = text.address k) (w : σ) :
    ∃ m c', Reaches step d m (inj c) w (inj c') w ∧
      c'.ip = text.address (k + Fragment.sizes (Block.move n.toUInt32 wrap)) ∧
      c'.memory = c.memory ∧ (∀ q : Reg, q ≠ .r12 → c'.get q = c.get q) ∧
      (c'.get .r12).toNat = (p + n) % length := by
  obtain ⟨hle, ⟨hpow, rfl⟩ | ⟨-, rfl⟩⟩ := Wrap.ofTapeLength_eq_ok.mp hwrap
  case inl =>
    obtain ⟨c', hf, hm, hs, h12⟩ := follow_mask c hn hle hpow hp hpointer
    simp only [Block.move] at hc ⊢
    rw [Fragment.sizes_plain]
    obtain ⟨hreach, hip'⟩ := exists_follow (d := d) hr hc (by simp [Instr.IsStraight]) hip hf w
    exact ⟨_, c', hreach, hip', hm, hs, h12⟩
  case inr =>
    obtain ⟨c', hf, hm, hs, h12, hflag⟩ := follow_compare c hn hle hp hpointer
    -- the sum is compared, and the subtraction jumped over unless it is needed
    have hsplit : Block.move n.toUInt32 (.length length.toUInt32) =
        Block.plain [.alu .add .r12 n.toUInt32.toInt32, .alu .cmp .r12 length.toUInt32.toInt32] ++
          (.instr (.jumpShort .below 7) :: Block.plain [.alu .sub .r12 length.toUInt32.toInt32]) :=
      rfl
    rw [hsplit, Text.hasAt_append, Fragment.sizes_plain] at hc
    obtain ⟨hc₁, hc₂⟩ := hc
    have hc₃ := hc₂.2
    obtain ⟨hr₁, hip₁⟩ := exists_follow (d := d) hr hc₁ (by simp [Instr.IsStraight]) hip hf w
    rw [hsplit, Fragment.sizes_append, Fragment.sizes_plain, Fragment.sizes_cons,
      Fragment.sizes_plain]
    have hjump := reaches_jumpShort (d := d) hr hc₂ hip₁ w
    by_cases hlt : p + n < length
    · rw [if_pos (by rw [hflag]; exact decide_eq_true hlt)] at hjump
      refine ⟨_, _, hr₁.trans hjump, ?_, ?_, fun q hq => ?_, ?_⟩
      · rw [Cpu.ip_jump, show signed8 7 = (7 : Nat).toUInt64 from rfl, Text.address_add]
        rfl
      · rw [Cpu.memory_jump, hm]
      · rw [Cpu.get_jump, hs q hq]
      · rw [Cpu.get_jump, h12, Nat.mod_eq_of_lt hlt]
    · rw [if_neg (by rw [hflag]; simpa using hlt)] at hjump
      obtain ⟨c'', hf', hm', hs', h12'⟩ := follow_subtract (c'.jump (text.address (k + _ + 2))) hle
        (Nat.le_of_not_lt hlt) (by rw [Cpu.get_jump, h12])
      obtain ⟨hr₂, hip₂⟩ := exists_follow (d := d) hr hc₃ (by simp [Instr.IsStraight])
        (Cpu.ip_jump ..) hf' w
      refine ⟨_, c'', (hr₁.trans hjump).trans hr₂, hip₂, ?_, fun q hq => ?_, ?_⟩
      · rw [hm', Cpu.memory_jump, hm]
      · rw [hs' q hq, Cpu.get_jump, hs q hq]
      · rw [h12', Nat.mod_eq_sub_mod (Nat.le_of_not_lt hlt), Nat.mod_eq_of_lt (by omega)]

omit hg in
theorem reaches_move {n : Nat} (hn : n < length) {wrap : Wrap}
    (hwrap : Wrap.ofTapeLength length = .ok wrap)
    (hc : text.HasAt place k (Block.move n.toUInt32 wrap)) (hw : Within s length tape c)
    (hip : c.ip = text.address k) (w : σ) :
    ∃ m state, Reaches step d m (inj c) w state w ∧
      At text inj s length (k + Fragment.sizes (Block.move n.toUInt32 wrap)) (tape.advance n)
        state := by
  obtain ⟨m, c', hreach, hip', hm, hs, h12⟩ :=
    exists_moved (d := d) hr hn hw.pointer_lt hwrap hc hw.pointer hip w
  exact ⟨m, _, hreach, c', rfl, hip', hw.advance hm (fun q _ hq => hs q hq) h12⟩

theorem reaches_add {v : UInt8} (hc : text.HasAt place k [.instr (.aluByte .add Block.cell v)])
    (hw : Within s length tape c) (hip : c.ip = text.address k) (w : σ) :
    ∃ m state, Reaches step d m (inj c) w state w ∧
      At text inj s length (k + Fragment.sizes [.instr (.aluByte .add Block.cell v)]) (tape.add v)
        state := by
  obtain ⟨c', hf, hm, hs⟩ := follow_addCell hg hw v
  exact reaches_at hr hc (by simp [Instr.IsStraight]) hip hf (hw.store hg hm fun q _ => hs q) w

theorem reaches_reset (hc : text.HasAt place k [.instr (.movByte Block.cell 0)])
    (hw : Within s length tape c) (hip : c.ip = text.address k) (w : σ) :
    ∃ m state, Reaches step d m (inj c) w state w ∧
      At text inj s length (k + Fragment.sizes [.instr (.movByte Block.cell 0)]) (tape.set 0)
        state := by
  obtain ⟨c', hf, hm, hs⟩ := follow_clearCell hg hw 0
  exact reaches_at hr hc (by simp [Instr.IsStraight]) hip hf (hw.store hg hm fun q _ => hs q) w

/-- The test at the top of a loop. -/
theorem tests_branch {l : Label}
    (hc : text.HasAt place k [.instr (.aluByte .cmp Block.cell 0),
      .branch (.jumpIf .equal) (.label l)]) :
    Tests step d (At text inj s length k)
      (At text inj s length (k + Fragment.sizes [.instr (.aluByte .cmp Block.cell 0),
        .branch (.jumpIf .equal) (.label l)]))
      (At text inj s length (place (.label l))) := by
  have htest {tape : Tape} {c : Cpu} (hw : Within s length tape c) (hip : c.ip = text.address k)
      (w : σ) : ∃ c', Reaches step d 2 (inj c) w (inj c') w ∧ Within s length tape c' ∧
        c'.ip = if tape.get = 0 then text.address (place (.label l))
          else text.address (k + Fragment.sizes [.instr (.aluByte .cmp Block.cell 0),
            .branch (.jumpIf .equal) (.label l)]) := by
    obtain ⟨c', hf, hm, hs, hflag⟩ := follow_testCell hg hw
    have hplain : text.HasAt place k (Block.plain [.aluByte .cmp Block.cell 0]) := ⟨hc.1, trivial⟩
    obtain ⟨hr₁, hip₁⟩ := exists_follow (d := d) hr hplain (by simp [Instr.IsStraight]) hip hf w
    have hr₂ := reaches_jumpIf (d := d) hr hc.2 hip₁ w
    refine ⟨_, hr₁.trans hr₂, hw.of_regs (by rw [Cpu.memory_jump, hm])
      (fun q _ => by rw [Cpu.get_jump, hs q]), ?_⟩
    rw [Cpu.ip_jump, hflag]
    by_cases hz : tape.get = 0
    · simp [hz]
    · simp [hz, Fragment.size, Nat.add_assoc]
  constructor
  · rintro tape _ w ⟨c, rfl, hip, hw⟩ hz
    obtain ⟨c', hreach, hw', hip'⟩ := htest hw hip w
    exact ⟨_, _, hreach, c', rfl, hip'.trans (if_pos hz), hw'⟩
  · rintro tape _ w ⟨c, rfl, hip, hw⟩ hz
    obtain ⟨c', hreach, hw', hip'⟩ := htest hw hip w
    exact ⟨1, _, hreach, c', rfl, hip'.trans (if_neg hz), hw'⟩

omit hg in
/-- The jump at the bottom of a loop. -/
theorem connects_jump {l : Label} (hc : text.HasAt place k [.branch .jump (.label l)]) :
    Connects step d (At text inj s length k) (At text inj s length (place (.label l))) := by
  rintro tape _ w ⟨c, rfl, hip, hw⟩
  exact ⟨1, _, reaches_jump hr hc hip w, _, rfl, Cpu.ip_jump ..,
    hw.of_regs (Cpu.memory_jump ..) fun q _ => Cpu.get_jump ..⟩

end Silent

end Blocks

end TapeLang.Native
