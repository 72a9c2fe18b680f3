import TapeLang.Executable
import TapeLang.Proofs.Native.System

/-!
# From entry to exit

The code in front of a routine gets memory for the tape, calls the routine, and exits with what it
returns, or with 2 if there is no memory.

* `ends_without_memory`: the exit with status 2.
* `called_of_memory`: the routine is called on a cleared tape.
* `tracks`: what becomes of a process that has its memory.
-/

namespace TapeLang.Job

open X86 Native Course

variable {σ : Type}

/-! ## The code in front of a routine -/

/-- Behind the call. -/
def leaving : List Fragment :=
  .instr Block.keepStatus :: (Block.plain Block.exitProcess ++
    [.instr Block.statusWithoutMemory,
      .instr (Block.jumpBack (Block.exitProcess ++ [Block.statusWithoutMemory]))])

theorem entryPoint_eq (tapeLength : UInt32) (target : Target) :
    Block.entryPoint tapeLength target =
      Block.plain (Block.requestTape tapeLength) ++
        (.instr .syscall :: .instr (.test .qword .rax .rax) ::
          .instr (.branch (.jumpIf .sign) 24) :: (Block.plain Block.passTape ++
            (.branch .call target :: leaving))) := rfl

variable {text : Text} {d : Device system σ} {place : Target → Nat} {k : Nat} {c : Cpu}

/-! ## The exit -/

theorem ends_exit (hc : text.HasAt place k (Block.plain Block.exitProcess))
    (hip : c.ip = text.address k) (w : σ) :
    (course (step text) d (.running c) w).Ends (.status (c.get .rdi).toUInt8) w := by
  obtain ⟨c₁, hf, hrax, hrdi⟩ : ∃ c₁, c.follow [.movImm32 .rax 60] = .running c₁ ∧
      c₁.get .rax = 60 ∧ c₁.get .rdi = c.get .rdi := ⟨_, rfl, rfl, rfl⟩
  have hfirst : text.HasAt place k (Block.plain [.movImm32 .rax 60]) := ⟨hc.1, trivial⟩
  obtain ⟨hr₁, hip₁⟩ := exists_follow (d := d) (drives text) hfirst (by simp [Instr.IsStraight]) hip
    hf w
  obtain ⟨c₂, hstep, -, -, hregs⟩ := exists_syscall hc.2 hip₁
  refine ends_of_reaches hr₁ ?_
  rw [hstep, systemCall, hregs .rax (by decide) (by decide), hrax,
    hregs .rdi (by decide) (by decide), hrdi]
  rfl

/-- The status that the routine has returned is that of the process. -/
theorem ends_leaving (hc : text.HasAt place k leaving) (hip : c.ip = text.address k) (w : σ) :
    (course (step text) d (.running c) w).Ends
      (.status (c.get .rax).toUInt32.toUInt64.toUInt8) w := by
  obtain ⟨hkeep, hload, hsyscall, -⟩ := hc
  obtain ⟨c₁, hf, hrdi⟩ : ∃ c₁, c.follow [Block.keepStatus] = .running c₁ ∧
      c₁.get .rdi = (c.get .rax).toUInt32.toUInt64 := ⟨_, rfl, rfl⟩
  have hfirst : text.HasAt place k (Block.plain [Block.keepStatus]) := ⟨hkeep, trivial⟩
  obtain ⟨hr₁, hip₁⟩ := exists_follow (d := d) (drives text) hfirst
    (by simp [Block.keepStatus, Instr.IsStraight]) hip hf w
  have hcode : text.HasAt place _ (Block.plain Block.exitProcess) :=
    ⟨hload, hsyscall, trivial⟩
  have hexit := ends_exit (d := d) hcode hip₁ w
  rw [hrdi] at hexit
  exact hr₁.ends hexit

/-- The offset in `leaving` of what is done without memory. -/
def noMemory : Nat := 9

theorem ends_noMemory (hc : text.HasAt place k leaving) (hip : c.ip = text.address (k + noMemory))
    (w : σ) : (course (step text) d (.running c) w).Ends (.status 2) w := by
  obtain ⟨-, hload, hsyscall, hstatus, hback, -⟩ := hc
  obtain ⟨c₁, hf, hrdi⟩ : ∃ c₁, c.follow [Block.statusWithoutMemory] = .running c₁ ∧
      c₁.get .rdi = 2 := ⟨_, rfl, rfl⟩
  have hfirst : text.HasAt place (k + noMemory) (Block.plain [Block.statusWithoutMemory]) :=
    ⟨hstatus, trivial⟩
  obtain ⟨hr₁, hip₁⟩ := exists_follow (d := d) (drives text) hfirst
    (by simp [Block.statusWithoutMemory, Instr.IsStraight]) hip hf w
  obtain ⟨dist, hjump, haddress⟩ := @Text.address_jumpBack text (k + 2)
    (Block.exitProcess ++ [Block.statusWithoutMemory]) (by decide)
  rw [hjump] at hback haddress
  have hjumping : text.HasAt place _ [.instr (.branch .jump dist)] := ⟨hback, trivial⟩
  have hr₂ := reaches_instr (d := d) (drives text) hjumping hip₁ rfl w
  have hip₂ : ((c₁.skip (Instr.branch .jump dist).size.toUInt64).skip (signed32 dist)).ip =
      text.address (k + 2) := by
    rw [Cpu.ip_skip, Cpu.ip_skip, hip₁, ← haddress]
    rfl
  have hcode : text.HasAt place (k + 2) (Block.plain Block.exitProcess) :=
    ⟨hload, hsyscall, trivial⟩
  have hexit := ends_exit (d := d) hcode hip₂ w
  rw [Cpu.get_skip, Cpu.get_skip, hrdi] at hexit
  exact (hr₁.trans hr₂).ends hexit

/-! ## The tape -/

variable {tapeLength : Nat}

theorem addMemory_cleared (memory : Memory) (length base : UInt64) :
    addMemory memory (.cleared length) base =
      ⟨⟨base, .blank length.toNat⟩ :: memory.regions⟩ := if_pos rfl

/-- Cleared memory is requested. -/
theorem follow_requestTape (c : Cpu) (hl : tapeLength ≤ maxTapeLength) :
    ∃ c', c.follow (Block.requestTape tapeLength.toUInt32) = .running c' ∧ c'.memory = c.memory ∧
      c'.get .rsp = c.get .rsp - 8 ∧ c'.get .rax = 9 ∧
      mapping c' = .cleared tapeLength.toUInt64 := by
  unfold maxTapeLength at hl
  refine ⟨_, rfl, rfl, rfl, rfl, ?_⟩
  have hlength := signed32_ofNat (show tapeLength < 2 ^ 31 by omega)
  have hdescriptor : signed32 (-1) = -1 := by decide
  simpa [mapping, Mapping.cleared, Cpu.get_set, hdescriptor] using hlength

/-- The system is asked for the tape. -/
theorem reaches_mapTape (hl : tapeLength ≤ maxTapeLength) {rest : List Fragment}
    (hc : text.HasAt place k
      (Block.plain (Block.requestTape tapeLength.toUInt32) ++ .instr .syscall :: rest))
    (hip : c.ip = text.address k) (w : σ) :
    ∃ n c₁, Reaches (step text) d n (.running c) w
        (afterMap c₁ (.cleared tapeLength.toUInt64) (d (.map (.cleared tapeLength.toUInt64)) w).1)
        (d (.map (.cleared tapeLength.toUInt64)) w).2 ∧
      c₁.ip = text.address (k + codeSize (Block.requestTape tapeLength.toUInt32) + 2) ∧
      c₁.memory = c.memory ∧ c₁.get .rsp = c.get .rsp - 8 := by
  rw [Text.hasAt_append, Fragment.sizes_plain] at hc
  obtain ⟨c₁, hf, hm, hrsp, hrax, hmapping⟩ := follow_requestTape c hl
  obtain ⟨hr₁, hip₁⟩ := exists_follow (d := d) (drives text) hc.1
    (by simp [Block.requestTape, Instr.IsStraight]) hip hf w
  obtain ⟨c₂, hstep, hip₂, hm₂, hregs⟩ := exists_syscall hc.2 hip₁
  have hsame : mapping c₂ = mapping c₁ := by
    simp only [mapping, hregs, ne_eq, reduceCtorEq, not_false_eq_true]
  have hask : step text (.running c₁) = .ask (.map (.cleared tapeLength.toUInt64))
      (afterMap c₂ (.cleared tapeLength.toUInt64)) := by
    rw [hstep, systemCall, hregs .rax (by decide) (by decide), hrax, hsame, hmapping]
    rfl
  refine ⟨_, c₂, hr₁.trans (.ask hask), hip₂, hm₂.trans hm, ?_⟩
  rw [hregs .rsp (by decide) (by decide), hrsp]

/-- The reply of the system is tested. -/
theorem reaches_reply {rest : List Fragment}
    (hc : text.HasAt place k (.instr (.test .qword .rax .rax) ::
      .instr (.branch (.jumpIf .sign) 24) :: rest))
    (hip : c.ip = text.address k) (w : σ) :
    ∃ c', Reaches (step text) d 2 (.running c) w (.running c') w ∧
      c'.ip = (if 2 ^ 63 ≤ (c.get .rax).toNat then text.address (k + 9 + 24)
        else text.address (k + 9)) ∧
      c'.memory = c.memory ∧ ∀ q : Reg, c'.get q = c.get q := by
  obtain ⟨c₁, hr₁, hip₁, hflags, hm, hregs⟩ := exists_test (d := d) (drives text) hc hip w
  have hsign : c₁.flags.holds .sign = decide (2 ^ 63 ≤ (c.get .rax).toNat) := by
    rw [hflags, Flags.ofTest, Flags.holds, Flags.ofBits64, Flags.sign_of, Bool.eq_iff_iff,
      negative64_iff, decide_eq_true_eq]
  have hip₂ : (c₁.skip (Instr.branch (.jumpIf .sign) 24).size.toUInt64).ip =
      text.address (k + 9) := by
    rw [Cpu.ip_skip, hip₁, Text.address_add]
    rfl
  have hr₂ := reaches_instr (d := d) (drives text) hc.2 hip₁ rfl w
  refine ⟨_, hr₁.trans hr₂, ?_⟩
  rw [Cpu.skipIf, Cpu.flags_skip, hsign]
  by_cases hs : 2 ^ 63 ≤ (c.get .rax).toNat
  · rw [if_pos (decide_eq_true hs), if_pos hs, Cpu.ip_skip, hip₂, Cpu.memory_skip, Cpu.memory_skip]
    refine ⟨Text.address_add text (k + 9) 24, hm, fun q => ?_⟩
    rw [Cpu.get_skip, Cpu.get_skip, hregs]
  · rw [if_neg (by simpa using hs), if_neg hs, hip₂, Cpu.memory_skip]
    refine ⟨rfl, hm, fun q => ?_⟩
    rw [Cpu.get_skip, hregs]

/-- Without memory for the tape the status is 2. -/
theorem ends_without_memory (hl : tapeLength ≤ maxTapeLength) {target : Target}
    (hc : text.HasAt place k (Block.entryPoint tapeLength.toUInt32 target))
    (hip : c.ip = text.address k) {w : σ} {n : ErrorNumber}
    (hreply : (d (.map (.cleared tapeLength.toUInt64)) w).1 = .error n) (hn : IsErrorNumber n) :
    (course (step text) d (.running c) w).Ends (.status 2)
      (d (.map (.cleared tapeLength.toUInt64)) w).2 := by
  rw [entryPoint_eq] at hc
  obtain ⟨m, c₁, hr₁, hip₁, -, -⟩ := reaches_mapTape (d := d) hl hc hip w
  rw [hreply] at hr₁
  rw [Text.hasAt_append, Fragment.sizes_plain] at hc
  obtain ⟨-, -, hc⟩ := hc
  obtain ⟨c₂, hr₂, hip₂, -, -⟩ := reaches_reply (d := d) (c := c₁.set .rax (0 - n)) hc
    ((Cpu.ip_set ..).trans hip₁) (d (.map (.cleared tapeLength.toUInt64)) w).2
  rw [Cpu.get_set, if_pos rfl, if_pos (toNat_zero_sub hn)] at hip₂
  obtain ⟨-, -, hc⟩ := hc
  rw [Text.hasAt_append, Fragment.sizes_plain] at hc
  obtain ⟨-, -, hleaving⟩ := hc
  have hdistance (m : Nat) : m + 9 + 24 = m + (Instr.test .qword .rax .rax).size +
      (Instr.branch (.jumpIf .sign) 24).size + codeSize Block.passTape +
      (Fragment.branch .call target).size + noMemory := by
    show m + 9 + 24 = m + 3 + 6 + 10 + 5 + 9
    omega
  rw [hdistance] at hip₂
  exact (hr₁.trans hr₂).ends (ends_noMemory hleaving hip₂ _)

/-! ## The call -/

/-- Where the stack of a job starts. -/
def top : UInt64 := stackBase + stackSize.toUInt64 - 256

theorem follow_arguments {base : UInt64} (hrax : c.get .rax = base)
    (hrsp : c.get .rsp = top - 8) (hm : c.memory.Covers ⟨top - 16, 8⟩) :
    ∃ c', c.follow Block.passTape = .running c' ∧ c'.get .rdi = base ∧ c'.get .rsi = top - 16 ∧
      c'.get .rsp = top - 16 ∧ c'.memory = c.memory.storeWord (top - 16) 0 := by
  obtain ⟨c₁, hf₁, hm₁, hrdi₁, hrsp₁⟩ : ∃ c₁, c.follow [.mov .qword .rdi .rax] = .running c₁ ∧
      c₁.memory = c.memory ∧ c₁.get .rdi = c.get .rax ∧ c₁.get .rsp = c.get .rsp :=
    ⟨_, rfl, rfl, rfl, rfl⟩
  have htop : top - 8 - 8 = top - 16 := by decide
  obtain ⟨c₂, hpush, -, hrsp₂, hregs₂, hm₂⟩ := @Cpu.execute_push
    (c₁.skip (Instr.pushImm8 0).size.toUInt64) (signed8 0) (by
      rw [Cpu.memory_skip, Cpu.get_skip, hm₁, hrsp₁, hrsp, htop]
      exact hm)
  rw [Cpu.get_skip, hrsp₁, hrsp, htop] at hrsp₂
  rw [Cpu.memory_skip, Cpu.get_skip, hm₁, hrsp₁, hrsp, htop] at hm₂
  obtain ⟨c₃, hf₃, hm₃, hrdi₃, hrsi₃, hrsp₃⟩ : ∃ c₃, c₂.follow [.mov .qword .rsi .rsp,
      .xor .dword .rdx .rdx] = .running c₃ ∧ c₃.memory = c₂.memory ∧
      c₃.get .rdi = c₂.get .rdi ∧ c₃.get .rsi = c₂.get .rsp ∧ c₃.get .rsp = c₂.get .rsp :=
    ⟨_, rfl, rfl, rfl, rfl, rfl⟩
  refine ⟨c₃, ?_, ?_, ?_, ?_, hm₃.trans hm₂⟩
  · have hsplit : Block.passTape = [.mov .qword .rdi .rax] ++ (.pushImm8 0 ::
        [.mov .qword .rsi .rsp, .xor .dword .rdx .rdx]) := rfl
    have hexec : (c₁.skip (Instr.pushImm8 0).size.toUInt64).execute (.pushImm8 0) =
        .running c₂ := hpush
    rw [hsplit, Cpu.follow_append, hf₁]
    exact (Cpu.follow_cons hexec _).trans hf₃
  · rw [hrdi₃, hregs₂ .rdi (by decide), Cpu.get_skip, hrdi₁, hrax]
  · rw [hrsi₃, hrsp₂]
  · rw [hrsp₃, hrsp₂]

theorem inside_stack {a : UInt64} {n : Nat} (h : (a - stackBase).toNat + n ≤ stackSize) :
    Span.Inside ⟨a, n⟩ ⟨stackBase, stackSize⟩ :=
  Span.inside_of_offset _ rfl h

/-- What the routine finds when it is called with the pointer and the return address on the stack. -/
theorem called_of_memory {base : UInt64} (hpos : 0 < tapeLength) (hl : tapeLength ≤ maxTapeLength)
    (hapart : Span.Apart ⟨base, tapeLength⟩ ⟨stackBase, stackSize⟩)
    {m : Memory} (hstack : m.Covers ⟨stackBase, stackSize⟩) {back : UInt64}
    (hm : c.memory = (Memory.storeWord ⟨⟨base, .blank tapeLength⟩ :: m.regions⟩
      (top - 16) 0).storeWord (top - 24) back)
    (hrdi : c.get .rdi = base) (hrsi : c.get .rsi = top - 16) (hrsp : c.get .rsp = top - 24) :
    Called c (.blank tapeLength hpos) ∧ c.memory.loadWord (c.get .rsp) = back := by
  obtain ⟨m₀, hm₀⟩ : ∃ m₀ : Memory, ⟨⟨base, .blank tapeLength⟩ :: m.regions⟩ = m₀ := ⟨_, rfl⟩
  have hstack₀ : m₀.Covers ⟨stackBase, stackSize⟩ := hm₀ ▸ hstack.cons _
  have hslot : Span.Inside ⟨top - 16, 8⟩ ⟨stackBase, stackSize⟩ := inside_stack (by decide)
  have hframe : frame c = ⟨top - 24 - 48, 56⟩ := by rw [frame, hrsp]
  have hbelow : Span.Inside ⟨top - 24 - 48, 56⟩ ⟨stackBase, stackSize⟩ := inside_stack (by decide)
  have hcells : m₀.Carries base (.blank tapeLength) := hm₀ ▸ .head ⟨base, .blank tapeLength⟩ _
  have htape : m₀.Covers ⟨base, tapeLength⟩ := by
    rw [← hm₀]
    exact @Memory.covers_region _ ⟨base, .blank tapeLength⟩ (List.mem_cons_self ..)
  refine called_of_stores (m := m₀) hl ?_ ?_ ?_ ?_ ?_ ?_ ?_ ?_
  · rwa [hrdi]
  · rwa [hrdi]
  · rw [hrsi]
    exact hstack₀.mono hslot
  · rw [hframe]
    exact hstack₀.mono hbelow
  · rw [hrdi, hrsi]
    exact hapart.mono (fun _ hx => hx) hslot
  · rw [hrdi, hframe]
    exact hapart.mono (fun _ hx => hx) hbelow
  · rw [hrsi, hframe]
    exact Span.apart_of_le (by decide) (by decide)
  · rw [hrsi, hrsp, hm, hm₀]
    rfl

/-- A call of a target in the text, with the return address on the stack. -/
theorem reaches_callTarget {target : Target} {rest : List Fragment}
    (hc : text.HasAt place k (.branch .call target :: rest)) (hip : c.ip = text.address k)
    (hm : c.memory.Covers ⟨c.get .rsp - 8, 8⟩) (w : σ) :
    ∃ c', Reaches (step text) d 1 (.running c) w (.running c') w ∧
      c'.ip = text.address (place target) ∧ c'.get .rsp = c.get .rsp - 8 ∧
      (∀ q : Reg, q ≠ .rsp → c'.get q = c.get q) ∧
      c'.memory = c.memory.storeWord (c.get .rsp - 8)
        (text.address (k + (Fragment.branch .call target).size)) := by
  obtain ⟨⟨dist, hf, hd⟩, -⟩ := hc
  obtain ⟨c', hcall, hip', hrsp', hregs', hm'⟩ := @Cpu.execute_callTo
    (c.skip (Fragment.branch .call target).size.toUInt64)
    (by rw [Cpu.memory_skip, Cpu.get_skip]; exact hm) (text.address (place target))
  simp only [Cpu.get_skip, Cpu.memory_skip, Cpu.ip_skip, hip, Text.address_add]
    at hrsp' hregs' hm'
  refine ⟨c', reaches_execute (drives text) (hip ▸ hf) ?_ w, hip', hrsp', hregs', hm'⟩
  rw [← hcall, Cpu.execute, Cpu.ip_skip, hip, Text.address_add, hd]

/-- With memory for the tape the routine is called. -/
theorem reaches_call {base : UInt64} (hpos : 0 < tapeLength) (hl : tapeLength ≤ maxTapeLength)
    {target : Target} (hc : text.HasAt place k (Block.entryPoint tapeLength.toUInt32 target))
    (hip : c.ip = text.address k) (hrsp : c.get .rsp = top)
    (hstack : c.memory.Covers ⟨stackBase, stackSize⟩) {w : σ}
    (hreply : (d (.map (.cleared tapeLength.toUInt64)) w).1 = .ok base) (hbase : base.toNat < 2 ^ 63)
    (hapart : Span.Apart ⟨base, tapeLength⟩ ⟨stackBase, stackSize⟩) :
    ∃ n c' back, Reaches (step text) d n (.running c) w (.running c')
        (d (.map (.cleared tapeLength.toUInt64)) w).2 ∧
      c'.ip = text.address (place target) ∧ Called c' (.blank tapeLength hpos) ∧
      c'.memory.loadWord (c'.get .rsp) = text.address back ∧ text.HasAt place back leaving := by
  rw [entryPoint_eq] at hc
  obtain ⟨m, c₁, hr₁, hip₁, hm₁, hrsp₁⟩ := reaches_mapTape (d := d) hl hc hip w
  obtain ⟨w', hw'⟩ : ∃ w', (d (.map (.cleared tapeLength.toUInt64)) w).2 = w' := ⟨_, rfl⟩
  rw [hreply, hw'] at hr₁
  rw [hw']
  rw [Text.hasAt_append, Fragment.sizes_plain] at hc
  obtain ⟨-, -, hc⟩ := hc
  have hlength : tapeLength.toUInt64.toNat = tapeLength := by
    unfold maxTapeLength at hl
    simp
    omega
  obtain ⟨c₂, hc₂⟩ : ∃ c₂, Cpu.set { c₁ with
    memory := ⟨⟨base, .blank tapeLength⟩ :: c.memory.regions⟩ } .rax base = c₂ := ⟨_, rfl⟩
  have hafter : afterMap c₁ (.cleared tapeLength.toUInt64) (.ok base) = .running c₂ := by
    rw [← hc₂, afterMap, addMemory_cleared, hlength, hm₁]
    rfl
  have hm₂ : c₂.memory = ⟨⟨base, .blank tapeLength⟩ :: c.memory.regions⟩ := by
    rw [← hc₂, Cpu.memory_set]
  have hrax₂ : c₂.get .rax = base := by rw [← hc₂, Cpu.get_set, if_pos rfl]
  have hrsp₂ : c₂.get .rsp = top - 8 := by
    rw [← hc₂, Cpu.get_set, if_neg (by decide), ← hrsp, ← hrsp₁]
    rfl
  have hip₂ : c₂.ip = c₁.ip := by rw [← hc₂, Cpu.ip_set]
  rw [hafter] at hr₁
  obtain ⟨c₃, hr₂, hip₃, hm₃, hregs₃⟩ := reaches_reply (d := d) hc (hip₂.trans hip₁) w'
  rw [hrax₂, if_neg (Nat.not_le.mpr hbase)] at hip₃
  obtain ⟨-, -, hc⟩ := hc
  rw [Text.hasAt_append, Fragment.sizes_plain] at hc
  obtain ⟨harguments, hcall, hleaving⟩ := hc
  have hstack₃ : c₃.memory.Covers ⟨stackBase, stackSize⟩ := by
    rw [hm₃, hm₂]
    exact hstack.cons _
  obtain ⟨c₄, hf₄, hrdi₄, hrsi₄, hrsp₄, hm₄⟩ := follow_arguments ((hregs₃ .rax).trans hrax₂)
    ((hregs₃ .rsp).trans hrsp₂) (hstack₃.mono (inside_stack (by decide)))
  obtain ⟨hr₃, hip₄⟩ := exists_follow (d := d) (drives text) harguments
    (by simp [Block.passTape, Instr.IsStraight]) hip₃ hf₄ w'
  have hbelow : top - 16 - 8 = top - 24 := by decide
  obtain ⟨c₅, hr₄, hip₅, hrsp₅, hregs₅, hm₅⟩ := reaches_callTarget (d := d)
    ⟨hcall, hleaving⟩ hip₄ (by
      rw [hrsp₄, hm₄, hbelow]
      exact (hstack₃.mono (inside_stack (by decide))).of_shape (Memory.shape_storeWord ..)) w'
  rw [hrsp₄, hbelow] at hrsp₅ hm₅
  rw [hm₄, hm₃, hm₂] at hm₅
  obtain ⟨hcalled, hback⟩ := called_of_memory hpos hl hapart hstack hm₅
    ((hregs₅ .rdi (by decide)).trans hrdi₄) ((hregs₅ .rsi (by decide)).trans hrsi₄) hrsp₅
  exact ⟨_, c₅, _, ((hr₁.trans hr₂).trans hr₃).trans hr₄, hip₅, hcalled, hback, hleaving⟩

/-! ## A whole process -/

/-- How a process exits whose routine is left like this. -/
def exitOf : Passage σ → Option Exit × σ
  | .through _ w => (some (.status 0), w)
  | .stopped _ _ w => (some (.status 1), w)
  | .unfinished w => (none, w)

/-- A process that has its memory gets wherever the tree of its program gets. -/
theorem tracks {p : Program} {t : Tree} {wrap : Wrap} {input output : σ → List UInt8}
    (hd : Documented d input output) (hp : t.flatten = p.instructions.toList)
    (hred : t.Reduced p.tapeLength) (hwrap : Wrap.ofTapeLength p.tapeLength = .ok wrap)
    (hl : p.tapeLength ≤ maxTapeLength)
    (hc : text.HasAt place k (Block.entryPoint p.tapeLength.toUInt32 .routine ++
      (.mark .routine :: t.routine .freestanding wrap)))
    (hip : c.ip = text.address k) (hrsp : c.get .rsp = top)
    (hstack : c.memory.Covers ⟨stackBase, stackSize⟩) {w : σ} {base : UInt64}
    (hreply : (d (.map (.cleared p.tapeLength.toUInt64)) w).1 = .ok base) :
    (course (step text) d (.running c) w).Tracks fun bound =>
      exitOf (t.exec (streams d) false bound (.blank p.tapeLength p.tapeLength_pos)
        (d (.map (.cleared p.tapeLength.toUInt64)) w).2) := by
  rw [Text.hasAt_append] at hc
  obtain ⟨hentry, hmark, hroutine⟩ := hc
  have hlength : p.tapeLength.toUInt64.toNat = p.tapeLength := by
    unfold maxTapeLength at hl
    simp
    omega
  obtain ⟨hbase, hapart⟩ := hd.map_ok _ w base (by rw [hlength]; exact hl) hreply
  rw [hlength] at hbase hapart
  have hpos := p.tapeLength_pos
  obtain ⟨n, c', back, hr, hip', hcalled, hback, hleaving⟩ := reaches_call (d := d) hpos hl hentry
    hip hrsp hstack hreply (by omega) hapart
  rw [hmark] at hip'
  -- the routine comes back with its status, which is that of the process
  have hexit {status : UInt64} {tape : Tape} {state : State} (w' : σ)
      (hb : Back State.running c' p.tapeLength status tape state) :
      (course (step text) d state w').Ends (.status status.toUInt32.toUInt64.toUInt8) w' := by
    obtain ⟨b, rfl, hret⟩ := hb
    have := ends_leaving (d := d) hleaving (hret.ip.trans hback) w'
    rwa [hret.status] at this
  intro bound
  have hdrives : Drives (step text) text State.running := drives text
  have hred : t.Reduced (Tape.blank p.tapeLength hpos).length := hred
  have hfollows : Follows (step text) d (fun _ => Back State.running c' p.tapeLength 1) bound
      (Back State.running c' p.tapeLength 0) (.running c')
      (d (.map (.cleared p.tapeLength.toUInt64)) w).2
      (t.exec (streams d) false bound (.blank p.tapeLength hpos)
        (d (.map (.cleared p.tapeLength.toUInt64)) w).2) :=
    follows_called hdrives (fun _ => hdrives) hp hred hwrap hroutine
      (fun s _ hg => transfers hd hg p place text) hcalled hip' bound _
  dsimp only
  generalize t.exec (streams d) false bound (.blank p.tapeLength hpos)
    (d (.map (.cleared p.tapeLength.toUInt64)) w).2 = passage at hfollows ⊢
  cases passage with
  | through tape w' =>
    obtain ⟨m, state, hm, hb⟩ := hfollows
    exact (hr.trans hm).ends (hexit w' hb)
  | stopped e tape w' =>
    obtain ⟨m, state, hm, hb⟩ := hfollows
    exact (hr.trans hm).ends (hexit w' hb)
  | unfinished w' =>
    obtain ⟨m, state, hm, hle⟩ := hfollows
    exact ⟨n + m, by omega, course_of_reaches (hr.trans hm)⟩

end TapeLang.Job
