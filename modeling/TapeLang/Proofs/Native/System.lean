import TapeLang.Job
import TapeLang.Proofs.Native.Program
import TapeLang.Proofs.Streams.Bytes

/-!
# System calls

A job reads and writes by system calls of one byte each. For the tree of its program the system is a
byte stream that cannot be looked at, and of which every failure is the same.

* `Documented`: what system calls do, said for the input and the output of the system.
* `streams`: the byte stream that a system is.
* `transfers`: reads and writes by system calls do what the tree says.
-/

namespace TapeLang.Job

open X86 Native

variable {σ : Type}

/-! ## The system -/

/-- The number of a failure, which is small. -/
def IsErrorNumber (n : ErrorNumber) : Prop := 0 < n.toNat ∧ n.toNat < 4096

/-- System calls as they are documented: cleared memory lies apart from the stack and below the upper
half of the address space, a read takes the next byte if there is one, a write appends a byte. Each
of them may fail, and what was written stays written. Nothing is said of any other memory. -/
structure Documented (d : Device system σ) (input output : σ → List UInt8) : Prop where
  grows : ∀ request w, output w <+: output (d request w).2
  map_input : ∀ length w, input (d (.map (.cleared length)) w).2 = input w
  map_output : ∀ length w, output (d (.map (.cleared length)) w).2 = output w
  map_ok : ∀ length w base, length.toNat ≤ maxTapeLength →
    (d (.map (.cleared length)) w).1 = .ok base →
    base.toNat + length.toNat ≤ 2 ^ 63 ∧ Span.Apart ⟨base, length.toNat⟩ ⟨stackBase, stackSize⟩
  map_error : ∀ length w n, (d (.map (.cleared length)) w).1 = .error n → IsErrorNumber n
  read_output : ∀ w, output (d (.read 0 1) w).2 = output w
  read_ok : ∀ w bytes, (d (.read 0 1) w).1 = .ok bytes →
    bytes = (input w).take 1 ∧ input (d (.read 0 1) w).2 = (input w).drop 1
  read_error : ∀ w n, (d (.read 0 1) w).1 = .error n → IsErrorNumber n
  write_ok : ∀ byte w count, (d (.write 1 [byte]) w).1 = .ok count → count = 1 ∧
    output (d (.write 1 [byte]) w).2 = output w ++ [byte] ∧
    input (d (.write 1 [byte]) w).2 = input w
  write_error : ∀ byte w n, (d (.write 1 [byte]) w).1 = .error n → IsErrorNumber n ∧
    output (d (.write 1 [byte]) w).2 = output w

/-- No read or write of one byte ever fails. -/
def Reliable (d : Device system σ) : Prop :=
  ∀ w n, (d (.read 0 1) w).1 ≠ .error n ∧ ∀ byte, (d (.write 1 [byte]) w).1 ≠ .error n

/-- A system with a log is one. -/
theorem Documented.logged {d : Device system σ} {input output : σ → List UInt8}
    (h : Documented d input output) :
    Documented d.logged (input ∘ Prod.fst) (output ∘ Prod.fst) where
  grows request w := h.grows request w.1
  map_input length w := h.map_input length w.1
  map_output length w := h.map_output length w.1
  map_ok length w base := h.map_ok length w.1 base
  map_error length w n := h.map_error length w.1 n
  read_output w := h.read_output w.1
  read_ok w bytes := h.read_ok w.1 bytes
  read_error w n := h.read_error w.1 n
  write_ok byte w count := h.write_ok byte w.1 count
  write_error byte w n := h.write_error byte w.1 n

/-- Cleared memory is what the console has. -/
theorem console_map (length : UInt64) (w : Console) :
    console (.map (.cleared length)) w = (.ok mapBase, w) :=
  congrArg (·, w) (if_pos rfl)

theorem documented_console :
    Documented console (fun w => w.input.unread.toList) (fun w => w.output.toList) where
  grows request w := by
    cases request with
    | map m => exact List.prefix_rfl
    | read descriptor count =>
      by_cases h : descriptor = 0
      · simp [console, h]
      · simp [console, h]
    | write descriptor bytes =>
      by_cases h : descriptor = 1
      · simp [console, h]
      · simp [console, h]
  map_input _ _ := rfl
  map_output _ _ := rfl
  map_ok length w base hl h := by
    rw [console_map] at h
    cases h
    unfold maxTapeLength at hl
    have hbase : mapBase.toNat = 0x7F0000000000 := rfl
    have habove : (stackBase - mapBase).toNat = 0xFF00000000 := rfl
    have hbelow : stackSize ≤ (mapBase - stackBase).toNat := by decide
    refine ⟨by omega, Span.apart_of_le ?_ hbelow⟩
    exact habove ▸ (by omega : length.toNat ≤ 0xFF00000000)
  map_error length w n h := by
    rw [console_map] at h
    cases h
  read_output _ := rfl
  read_ok w bytes h := by
    cases h
    have htaken : (w.input.take 1).1 = (w.input.unread.toList).take 1 := by
      rw [Cursor.toList_unread, Cursor.take, Array.toList_extract, List.extract_eq_take_drop,
        Nat.add_sub_cancel_left]
    refine ⟨htaken, ?_⟩
    show (w.input.take 1).2.unread.toList = w.input.unread.toList.drop 1
    rw [Cursor.toList_unread] at htaken ⊢
    show w.input.bytes.toList.drop (w.input.index + (w.input.take 1).1.length) = _
    rw [htaken, ← List.drop_drop, Cursor.toList_unread]
    cases w.input.bytes.toList.drop w.input.index <;> rfl
  read_error _ _ h := nomatch h
  write_ok byte w count h := by
    cases h
    refine ⟨rfl, ?_, rfl⟩
    simp [console]
  write_error _ _ _ h := nomatch h

theorem reliable_console : Reliable console := by
  intro w n
  constructor
  · intro h
    cases h
  · intro byte h
    cases h

/-- The failure of a system call. A job does not tell one from another. -/
def fault : Failure := ⟨.other, ""⟩

def streams (d : Device system σ) : Device byteStream σ
  | .canPeek, w => (false, w)
  | .peek, w => (.ok .closed, w)
  | .next, w =>
    match d (.read 0 1) w with
    | (.ok bytes, w) => (.ok bytes.head?, w)
    | (.error _, w) => (.error fault, w)
  | .put byte, w =>
    match d (.write 1 [byte]) w with
    | (.ok _, w) => (.ok true, w)
    | (.error _, w) => (.error fault, w)
  | .flush, w => (.ok (), w)
  | .pause, w => ((), w)

/-! ## Steps -/

variable {text : Text} {d : Device system σ} {place : Target → Nat} {s c : Cpu} {length k : Nat}
  {tape : Tape}

theorem drives (text : Text) : Drives (step text) text State.running := by
  intro c c' i n hfetch he
  simp only [step, Cpu.step, Cpu.fetch?, hfetch, he]

theorem exists_syscall {rest : List Fragment} (hc : text.HasAt place k (.instr .syscall :: rest))
    (hip : c.ip = text.address k) :
    ∃ c', step text (.running c) = systemCall c' ∧ c'.ip = text.address (k + 2) ∧
      c'.memory = c.memory ∧ ∀ q : Reg, q ≠ .rcx → q ≠ .r11 → c'.get q = c.get q := by
  have hfetch : text.fetch? c.ip = some (.syscall, 2) := hip ▸ hc.1
  refine ⟨((c.skip 2).set .rcx (c.skip 2).ip).set .r11 (c.skip 2).flags.word, ?_, ?_, ?_,
    fun q hcx h11 => ?_⟩
  · simp only [step, Cpu.step, Cpu.fetch?, hfetch]
    rfl
  · simp only [Cpu.ip_set, Cpu.ip_skip, hip]
    exact Text.address_add text k 2
  · simp
  · simp [Cpu.get_set, hcx, h11]

/-! ## One byte -/

theorem toNat_zero_sub {n : ErrorNumber} (h : IsErrorNumber n) : 2 ^ 63 ≤ (0 - n).toNat := by
  obtain ⟨h₀, h₁⟩ := h
  rw [UInt64.toNat_sub]
  have := n.toNat_lt
  simp
  omega

/-- A job fails unless its system call has moved a byte. -/
theorem holds_lessEqual (v : UInt64) :
    (Flags.ofBits64 v).holds .lessEqual = decide (v = 0 ∨ 2 ^ 63 ≤ v.toNat) := by
  rw [Flags.holds, Flags.ofBits64, Flags.zero_of, Flags.sign_of, Flags.overflow_of, Bool.bne_false,
    Bool.eq_iff_iff, Bool.or_eq_true, beq_iff_eq, negative64_iff, decide_eq_true_eq]

/-- The code up to the system call. -/
def request (number descriptor : UInt32) : List Instr :=
  [.movImm32 .rax number, .movImm32 .rdi descriptor, .lea .rsi Block.cell, .movImm32 .rdx 1,
    .syscall]

theorem moveByte_eq (number descriptor : UInt32) :
    Block.moveByte number descriptor = Block.plain (request number descriptor) ++
      [.instr (.test .qword .rax .rax), .branch (.jumpIf .lessEqual) .fail] := rfl

/-- In `c` the processor is in a system call that moves a byte of a body. -/
structure Requesting (text : Text) (k : Nat) (s : Cpu) (length : Nat) (tape : Tape)
    (number descriptor : UInt32) (c : Cpu) : Prop where
  ip : c.ip = text.address k
  within : Within s length tape c
  number : c.get .rax = number.toUInt64
  descriptor : c.get .rdi = descriptor.toUInt64
  buffer : c.get .rsi = c.address Block.cell
  count : c.get .rdx = 1

theorem reaches_request {number descriptor : UInt32}
    (hc : text.HasAt place k (Block.moveByte number descriptor)) (hip : c.ip = text.address k)
    (hw : Within s length tape c) (w : σ) :
    ∃ c₁ c₂, Reaches (step text) d 4 (.running c) w (.running c₁) w ∧
      step text (.running c₁) = systemCall c₂ ∧
      Requesting text (k + codeSize (request number descriptor)) s length tape number descriptor
        c₂ := by
  have hsplit : Block.moveByte number descriptor =
      Block.plain [.movImm32 .rax number, .movImm32 .rdi descriptor, .lea .rsi Block.cell,
        .movImm32 .rdx 1] ++ (.instr .syscall :: [.instr (.test .qword .rax .rax),
          .branch (.jumpIf .lessEqual) .fail]) := rfl
  rw [hsplit, Text.hasAt_append, Fragment.sizes_plain] at hc
  obtain ⟨c₁, hf, hm, hrax, hrdi, hrsi, hrdx, hregs⟩ : ∃ c₁, c.follow [.movImm32 .rax number,
      .movImm32 .rdi descriptor, .lea .rsi Block.cell, .movImm32 .rdx 1] = .running c₁ ∧
      c₁.memory = c.memory ∧ c₁.get .rax = number.toUInt64 ∧
      c₁.get .rdi = descriptor.toUInt64 ∧ c₁.get .rsi = c.address Block.cell ∧
      c₁.get .rdx = 1 ∧ ∀ q : Reg, q.isCalleeSaved → c₁.get q = c.get q :=
    ⟨_, rfl, rfl, rfl, rfl, rfl, rfl, fun q hq => by
      iterate 4 rw [Cpu.get_set_of_saved _ hq _ rfl, Cpu.get_skip]⟩
  obtain ⟨hr₁, hip₁⟩ := exists_follow (d := d) (drives text) hc.1 (by simp [Instr.IsStraight]) hip
    hf w
  obtain ⟨c₂, hstep, hip₂, hm₂, hregs₂⟩ := exists_syscall hc.2 hip₁
  have hkept (q : Reg) (hq : q.isCalleeSaved) : c₂.get q = c.get q := by
    rw [hregs₂ q (by rintro rfl; cases hq) (by rintro rfl; cases hq), hregs q hq]
  refine ⟨c₁, c₂, hr₁, hstep, ?_, hw.of_regs (hm₂.trans hm) hkept, ?_, ?_, ?_, ?_⟩
  · rw [hip₂, Nat.add_assoc]
    rfl
  · rw [hregs₂ .rax (by decide) (by decide), hrax]
  · rw [hregs₂ .rdi (by decide) (by decide), hrdi]
  · rw [hregs₂ .rsi (by decide) (by decide), hrsi, Cpu.address, Cpu.address,
      hkept Block.cell.base rfl, hkept Block.cell.index rfl]
  · rw [hregs₂ .rdx (by decide) (by decide), hrdx]

/-! ## Reads and writes -/

/-- No system call has failed, and nothing else is known of the register of results. -/
theorem Requesting.answered {number descriptor : UInt32} {tape' : Tape} {c' : Cpu} {v : UInt64}
    (h : Requesting text k s length tape number descriptor c) (hm : Within s length tape' c')
    (hip : c'.ip = c.ip)
    (hc : text.HasAt place k
      [.instr (.test .qword .rax .rax), .branch (.jumpIf .lessEqual) .fail]) (w : σ) :
    ∃ b, Reaches (step text) d 2 (Job.answered c' v) w (.running b) w ∧
      b.ip = (if v = 0 ∨ 2 ^ 63 ≤ v.toNat then text.address (place .fail)
        else text.address (k + Fragment.sizes
          [.instr (.test .qword .rax .rax), .branch (.jumpIf .lessEqual) .fail])) ∧
      Within s length tape' b := by
  have hv : (c'.set .rax v).get .rax = v := by rw [Cpu.get_set, if_pos rfl]
  have hw : Within s length tape' (c'.set .rax v) :=
    hm.of_regs (Cpu.memory_set ..) fun q hq => by
      rw [Cpu.get_set, if_neg (by rintro rfl; cases hq)]
  have hdrives : Drives (step text) text State.running := drives text
  obtain ⟨b, hr, hipb, hmb, hregs⟩ := reaches_verdict (d := d) hdrives hc
    ((Cpu.ip_set ..).trans (hip.trans h.ip)) w
  rw [hv, Flags.ofTest, holds_lessEqual] at hipb
  exact ⟨b, hr, by simpa only [decide_eq_true_eq] using hipb, hw.of_regs hmb fun q _ => hregs q⟩

/-- The byte of a write is the current cell. -/
theorem Requesting.offered {number descriptor : UInt32} (hg : Ground s length)
    (h : Requesting text k s length tape number descriptor c) :
    c.memory.coversBytes (c.get .rsi) 1 ∧ c.memory.toList (c.get .rsi) 1 = [tape.get] := by
  have hcovers : c.memory.covers (c.address Block.cell) := h.within.covers_cell hg
  refine ⟨?_, ?_⟩
  · rw [h.buffer, Memory.coversBytes, hcovers]
    rfl
  · rw [h.buffer, ← h.within.load_cell hg]
    rfl

/-- The byte of a read gets into the current cell. -/
theorem Requesting.stored {number descriptor : UInt32} (hg : Ground s length)
    (h : Requesting text k s length tape number descriptor c) (byte : UInt8) (rest : List UInt8) :
    ∃ c', afterRead c (c.get .rsi) 1 (.ok (byte :: rest)) = Job.answered c' 1 ∧ c'.ip = c.ip ∧
      Within s length (tape.set byte) c' := by
  refine ⟨{ c with memory := c.memory.store (c.address Block.cell) byte }, ?_, rfl,
    h.within.store hg rfl fun _ _ => rfl⟩
  rw [← h.buffer]
  exact if_pos (h.offered hg).1

section Transfer

variable {input output : σ → List UInt8} (hd : Documented d input output)
  (hg : Ground s length)
include hd hg

theorem follows_read {position : Option Position}
    (hc : text.HasAt place k (Block.moveByte 0 0)) (hip : c.ip = text.address k)
    (hw : Within s length tape c) (bound : Nat) (world : σ) :
    Follows (step text) d (AtFail text place (fun _ => State.running) s length) bound
      (At text State.running s length (k + Fragment.sizes (Block.moveByte 0 0)))
      (.running c) world
      (Transfer.prompt.perform (streams d) false bound position tape world) := by
  obtain ⟨c₁, c₂, hr₁, hstep, hq⟩ := reaches_request (d := d) hc hip hw world
  rw [moveByte_eq, Text.hasAt_append, Fragment.sizes_plain] at hc
  have hask : step text (.running c₁) = .ask (.read 0 1) (afterRead c₂ (c₂.get .rsi) 1) := by
    rw [hstep, systemCall, hq.number, hq.descriptor, hq.count]
    rfl
  have hr₂ := Reaches.ask (d := d) (w := world) hask
  match bound with
  | 0 => exact ⟨0, _, .refl _ world, Nat.le_refl 0⟩
  | bound + 1 =>
    have hprompt : Transfer.prompt.perform (streams d) false (bound + 1) position tape world =
        Transfer.take.perform (streams d) false bound position tape world := rfl
    rw [hprompt]
    refine Follows.mono (.after hr₁ ?_) (show bound + 1 ≤ 4 + bound by omega)
    cases hreply : d (.read 0 1) world with
    | mk reply w' =>
      rw [hreply] at hr₂
      cases reply with
      | error n =>
        have hn := hd.read_error world n (by rw [hreply])
        have hnext : streams d Transfer.take.request world = (.error fault, w') := by
          simp only [streams, hreply]
        obtain ⟨b, hr₃, hip₃, hw₃⟩ := hq.answered (d := d) (v := 0 - n) hq.within rfl hc.2 w'
        rw [if_pos (.inr (toNat_zero_sub hn))] at hip₃
        exact Follows.exchange hnext rfl hr₂ (fun _ => ⟨2, _, hr₃, b, rfl, hip₃, hw₃⟩) bound
      | ok bytes =>
        have hnext : streams d Transfer.take.request world = (.ok bytes.head?, w') := by
          simp only [streams, hreply]
        cases bytes with
        | nil =>
          obtain ⟨b, hr₃, hip₃, hw₃⟩ := hq.answered (d := d) (v := 0) hq.within rfl hc.2 w'
          rw [if_pos (.inl rfl)] at hip₃
          exact Follows.exchange hnext rfl hr₂ (fun _ => ⟨2, _, hr₃, b, rfl, hip₃, hw₃⟩) bound
        | cons byte rest =>
          obtain ⟨c₃, hafter, hip₂, hw₂⟩ := hq.stored hg byte rest
          obtain ⟨b, hr₃, hip₃, hw₃⟩ := hq.answered (d := d) (v := 1) hw₂ hip₂ hc.2 w'
          rw [if_neg (by decide)] at hip₃
          rw [hafter] at hr₂
          refine Follows.exchange hnext rfl hr₂ (fun _ => ⟨2, _, hr₃, b, rfl, ?_, hw₃⟩) bound
          rw [hip₃, moveByte_eq, Fragment.sizes_append, Fragment.sizes_plain, Nat.add_assoc]

theorem follows_write {position : Option Position}
    (hc : text.HasAt place k (Block.moveByte 1 1)) (hip : c.ip = text.address k)
    (hw : Within s length tape c) (bound : Nat) (world : σ) :
    Follows (step text) d (AtFail text place (fun _ => State.running) s length) bound
      (At text State.running s length (k + Fragment.sizes (Block.moveByte 1 1)))
      (.running c) world
      ((Transfer.offer tape.get).perform (streams d) false bound position tape world) := by
  obtain ⟨c₁, c₂, hr₁, hstep, hq⟩ := reaches_request (d := d) hc hip hw world
  rw [moveByte_eq, Text.hasAt_append, Fragment.sizes_plain] at hc
  obtain ⟨hbytes, hlist⟩ := hq.offered hg
  have hask : step text (.running c₁) = .ask (.write 1 [tape.get]) (afterWrite c₂) := by
    rw [hstep, systemCall, hq.number, hq.descriptor, hq.count, ← hlist]
    exact if_pos hbytes
  have hr₂ := Reaches.ask (d := d) (w := world) hask
  refine Follows.mono (.after hr₁ ?_) (Nat.le_add_left bound 4)
  cases hreply : d (.write 1 [tape.get]) world with
  | mk reply w' =>
    rw [hreply] at hr₂
    cases reply with
    | error n =>
      have hn := (hd.write_error tape.get world n (by rw [hreply])).1
      have hput : streams d (Transfer.offer tape.get).request world = (.error fault, w') := by
        simp only [streams, hreply]
      obtain ⟨b, hr₃, hip₃, hw₃⟩ := hq.answered (d := d) (v := 0 - n) hq.within rfl hc.2 w'
      rw [if_pos (.inr (toNat_zero_sub hn))] at hip₃
      exact Follows.exchange hput rfl hr₂ (fun _ => ⟨2, _, hr₃, b, rfl, hip₃, hw₃⟩) bound
    | ok count =>
      obtain ⟨rfl, -, -⟩ := hd.write_ok tape.get world count (by rw [hreply])
      have hput : streams d (Transfer.offer tape.get).request world = (.ok true, w') := by
        simp only [streams, hreply]
      obtain ⟨b, hr₃, hip₃, hw₃⟩ := hq.answered (d := d) (v := 1) hq.within rfl hc.2 w'
      rw [if_neg (by decide)] at hip₃
      refine Follows.exchange hput rfl hr₂ (fun _ => ⟨2, _, hr₃, b, rfl, ?_, hw₃⟩) bound
      rw [hip₃, moveByte_eq, Fragment.sizes_append, Fragment.sizes_plain, Nat.add_assoc]

/-- Reads and writes by system calls do what the tree says. -/
theorem transfers (p : Program) (place : Target → Nat) (text : Text) :
    Transfers (step text) d text place .freestanding State.running (fun _ => State.running)
      (streams d) false p s length := by
  rintro c wrap k index position xs hc - hcode bound tape state world ⟨cpu, rfl, hip, hw⟩
  rcases hc with rfl | rfl
  · exact follows_read hd hg hcode hip hw bound world
  · exact follows_write hd hg hcode hip hw bound world

end Transfer

end TapeLang.Job
