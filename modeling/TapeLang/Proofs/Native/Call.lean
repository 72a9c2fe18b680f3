import TapeLang.Proofs.Native.Body
import TapeLang.Proofs.X86.Stack

/-!
# Calls of a routine

What a routine relies on when it is called and what it leaves behind, whoever calls it. The prologue
saves the registers of the caller on the stack, above the one word that the body may use, and both
exits put them back.

* `Called`, `Returned`: the two sides of a call.
* `exists_prologue`: a called routine gets into its body.
* `reaches_epilogue`, `reaches_fail`: the body is left for the caller, with status 0 or 1.
-/

namespace TapeLang.Native

open X86 Span

/-- What a routine may change of the stack, and the return address above. -/
def frame (c : Cpu) : Span := ⟨c.get .rsp - 48, 56⟩

/-- A routine has been called, with `tape` as the tape. -/
structure Called (c : Cpu) (tape : Tape) : Prop where
  length_le : tape.length ≤ maxTapeLength
  carries : c.memory.Carries (c.get .rdi) tape.cells
  pointer : c.memory.loadWord (c.get .rsi) = tape.pointer.toUInt64
  covers_tape : c.memory.Covers ⟨c.get .rdi, tape.length⟩
  covers_pointer : c.memory.Covers ⟨c.get .rsi, 8⟩
  covers_frame : c.memory.Covers (frame c)
  tape_pointer : Apart ⟨c.get .rdi, tape.length⟩ ⟨c.get .rsi, 8⟩
  tape_frame : Apart ⟨c.get .rdi, tape.length⟩ (frame c)
  pointer_frame : Apart ⟨c.get .rsi, 8⟩ (frame c)

/-- A routine that was called in `c` has returned with `tape` as the tape. -/
structure Returned (c : Cpu) (length : Nat) (tape : Tape) (status : UInt64) (c' : Cpu) : Prop where
  length_eq : tape.length = length
  ip : c'.ip = c.memory.loadWord (c.get .rsp)
  status : c'.get .rax = status
  top : c'.get .rsp = c.get .rsp + 8
  saved : ∀ q : Reg, q.isCalleeSaved → q ≠ .rsp → c'.get q = c.get q
  shape : c'.memory.shape = c.memory.shape
  carries : c'.memory.Carries (c.get .rdi) tape.cells
  pointer : c'.memory.loadWord (c.get .rsi) = tape.pointer.toUInt64

/-- The body of a routine that was called in `c` starts in `s`. -/
structure Entered (c s : Cpu) : Prop where
  tape : s.get .rbx = c.get .rdi
  slot : s.get .r14 = c.get .rsi
  /-- What the hooks have to be given. -/
  context : s.get .r13 = c.get .rdx
  frameBase : s.get .rbp = c.get .rbp
  top : s.get .rsp = c.get .rsp - 40
  shape : s.memory.shape = c.memory.shape
  stacked : s.memory.Stacked (s.get .rsp)
    [c.get .r15, c.get .r14, c.get .r13, c.get .r12, c.get .rbx, c.memory.loadWord (c.get .rsp)]

/-! ## Into the body -/

variable {c s : Cpu} {tape : Tape} {length : Nat}

theorem inside_saved (c : Cpu) : Inside ⟨c.get .rsp - 40, 40⟩ (frame c) :=
  inside_of_sub (c.get .rsp) 48 40 (by omega)

theorem inside_back (c : Cpu) : Inside ⟨c.get .rsp, 8⟩ (frame c) :=
  inside_of_top (c.get .rsp) 48 (by omega)

/-- A routine has been called once the pointer and the return address have been stored, the latter
on the stack. -/
theorem called_of_stores {m : Memory} {back : UInt64} (hl : tape.length ≤ maxTapeLength)
    (hcells : m.Carries (c.get .rdi) tape.cells) (htape : m.Covers ⟨c.get .rdi, tape.length⟩)
    (hpointer : m.Covers ⟨c.get .rsi, 8⟩) (hframe : m.Covers (frame c))
    (htp : Apart ⟨c.get .rdi, tape.length⟩ ⟨c.get .rsi, 8⟩)
    (htf : Apart ⟨c.get .rdi, tape.length⟩ (frame c)) (hpf : Apart ⟨c.get .rsi, 8⟩ (frame c))
    (hm : c.memory =
      (m.storeWord (c.get .rsi) tape.pointer.toUInt64).storeWord (c.get .rsp) back) :
    Called c tape ∧ c.memory.loadWord (c.get .rsp) = back := by
  have hback : (m.storeWord (c.get .rsi) tape.pointer.toUInt64).Covers ⟨c.get .rsp, 8⟩ :=
    (hframe.mono (inside_back c)).of_shape (Memory.shape_storeWord ..)
  have hshape : c.memory.shape = m.shape := by
    rw [hm, Memory.shape_storeWord, Memory.shape_storeWord]
  refine ⟨⟨hl, ?_, ?_, htape.of_shape hshape, hpointer.of_shape hshape, hframe.of_shape hshape,
    htp, htf, hpf⟩, ?_⟩
  · rw [hm]
    refine hcells.congr fun x hx => ?_
    rw [Memory.load_storeWord _ _ fun hb => htf x hx (inside_back c x hb),
      Memory.load_storeWord _ _ (htp x hx)]
  · rw [hm, Memory.loadWord_storeWord_of_apart _ _ (hpf.mono (fun _ hx => hx) (inside_back c)),
      Memory.loadWord_storeWord hpointer]
  · rw [hm, Memory.loadWord_storeWord hback]

theorem Entered.sub_top (h : Entered c s) : s.get .rsp - 8 = c.get .rsp - 48 := by
  rw [h.top]
  exact sub_sub_bytes (c.get .rsp) 40 8

theorem Entered.inside_below (h : Entered c s) : (below s).Inside (frame c) := by
  rw [below, h.sub_top]
  exact inside_of_le (by omega)

theorem Entered.inside_saved (h : Entered c s) : (savedSpan s).Inside (frame c) := by
  rw [savedSpan, h.top]
  exact inside_of_sub (c.get .rsp) 48 40 (by omega)

/-- The word that the body may use is below what the prologue has saved. -/
theorem apart_below (s : Cpu) : (savedSpan s).Apart (below s) :=
  apart_of_sub (s.get .rsp) 8 (by omega)

theorem follow_arguments (hc : c.memory.Covers ⟨c.get .rsi, 8⟩) :
    ∃ s, c.follow [.mov .qword .rbx .rdi, .mov .qword .r14 .rsi, .load .r12 .rsi,
        .mov .qword .r13 .rdx] = .running s ∧
      s.memory = c.memory ∧ s.get .rbx = c.get .rdi ∧ s.get .r14 = c.get .rsi ∧
      s.get .r12 = c.memory.loadWord (c.get .rsi) ∧ s.get .r13 = c.get .rdx ∧
      s.get .rbp = c.get .rbp ∧ s.get .rsp = c.get .rsp := by
  obtain ⟨c₁, hf, hm, hrsi, hrdx, hget⟩ : ∃ c₁,
      c.follow [.mov .qword .rbx .rdi, .mov .qword .r14 .rsi] = .running c₁ ∧
      c₁.memory = c.memory ∧ c₁.get .rsi = c.get .rsi ∧ c₁.get .rdx = c.get .rdx ∧
      c₁.get .rbx = c.get .rdi ∧ c₁.get .r14 = c.get .rsi ∧ c₁.get .rbp = c.get .rbp ∧
      c₁.get .rsp = c.get .rsp := ⟨_, rfl, rfl, rfl, rfl, rfl, rfl, rfl, rfl⟩
  have hload := @Cpu.execute_load (c₁.skip (Instr.load .r12 .rsi).size.toUInt64) .r12 .rsi
    (by simpa [hm, hrsi] using hc)
  rw [Cpu.memory_skip, Cpu.get_skip, hm, hrsi] at hload
  obtain ⟨c₂, hc₂⟩ : ∃ c₂, (c₁.skip (Instr.load .r12 .rsi).size.toUInt64).set .r12
      (c.memory.loadWord (c.get .rsi)) = c₂ := ⟨_, rfl⟩
  have hget₂ (q : Reg) : c₂.get q =
      if q = .r12 then c.memory.loadWord (c.get .rsi) else c₁.get q := by
    rw [← hc₂, Cpu.get_set, Cpu.get_skip]
  have hm₂ : c₂.memory = c.memory := by
    rw [← hc₂, Cpu.memory_set, Cpu.memory_skip, hm]
  rw [hc₂] at hload
  obtain ⟨s, hs, hms, hr13, hother⟩ : ∃ s, c₂.follow [.mov .qword .r13 .rdx] = .running s ∧
      s.memory = c₂.memory ∧ s.get .r13 = c₂.get .rdx ∧
      ∀ q : Reg, q ≠ .r13 → s.get q = c₂.get q :=
    ⟨_, rfl, rfl, rfl, fun q hq => by simp [Cpu.get_set, hq]⟩
  have hcontext : s.get .r13 = c.get .rdx := by rw [hr13, hget₂, if_neg (by decide), hrdx]
  refine ⟨s, ?_, hms.trans hm₂, ?_, ?_, ?_, hcontext, ?_, ?_⟩
  · rw [show [Instr.mov .qword .rbx .rdi, .mov .qword .r14 .rsi, .load .r12 .rsi,
      .mov .qword .r13 .rdx] = [.mov .qword .rbx .rdi, .mov .qword .r14 .rsi] ++
        [.load .r12 .rsi, .mov .qword .r13 .rdx] from rfl, Cpu.follow_append, hf]
    simp only
    rw [Cpu.follow_cons hload, hs]
  all_goals
    rw [hother _ (by decide), hget₂]
    simp [hget]

/-- The registers of the caller are saved. -/
theorem follow_saves (hc : c.memory.Covers (frame c)) :
    ∃ c₁, c.follow ([.rbx, .r12, .r13, .r14, .r15].map .push) = .running c₁ ∧
      c₁.get .rsp = c.get .rsp - 40 ∧ (∀ q : Reg, q ≠ .rsp → c₁.get q = c.get q) ∧
      c₁.memory.shape = c.memory.shape ∧
      c₁.memory.Stacked (c.get .rsp - 40) [c.get .r15, c.get .r14, c.get .r13, c.get .r12,
        c.get .rbx, c.memory.loadWord (c.get .rsp)] ∧
      ∀ x, ¬ (frame c).Has x → c₁.memory.load x = c.memory.load x := by
  have hstack : c.memory.Stacked (c.get .rsp) [c.memory.loadWord (c.get .rsp)] := ⟨rfl, trivial⟩
  have hpushed : c.memory.Covers ⟨c.get .rsp - 40, 40⟩ := hc.mono (inside_saved c)
  obtain ⟨c₁, hf, htop, hregs, hshape, hstacked, hload⟩ :=
    @Cpu.follow_pushes [.rbx, .r12, .r13, .r14, .r15] (by decide) c _ hstack (by simp) hpushed
  have htop : c₁.get .rsp = c.get .rsp - 40 := htop
  rw [htop] at hstacked
  exact ⟨c₁, hf, htop, hregs, hshape, hstacked,
    fun x hx => hload x fun h => hx (inside_saved c x h)⟩

/-- A called routine gets into its body. -/
theorem exists_prologue (h : Called c tape) :
    ∃ s, c.follow [.push .rbx, .push .r12, .push .r13, .push .r14, .push .r15,
        .mov .qword .rbx .rdi, .mov .qword .r14 .rsi, .load .r12 .rsi, .mov .qword .r13 .rdx] =
        .running s ∧
      Entered c s ∧ Ground s tape.length ∧ Within s tape.length tape s := by
  obtain ⟨c₁, hf, htop, hregs, hshape, hstacked, hload⟩ := follow_saves h.covers_frame
  have hrsi : c₁.get .rsi = c.get .rsi := hregs .rsi nofun
  have hslot : c₁.memory.Covers ⟨c₁.get .rsi, 8⟩ := by
    rw [hrsi]
    exact h.covers_pointer.of_shape hshape
  obtain ⟨s, hs, hm, hrbx, hr14, hr12, hr13, hrbp, hrsp⟩ := follow_arguments hslot
  have hentered : Entered c s := by
    refine ⟨?_, ?_, ?_, ?_, ?_, ?_, ?_⟩
    · rw [hrbx, hregs .rdi nofun]
    · rw [hr14, hrsi]
    · rw [hr13, hregs .rdx nofun]
    · rw [hrbp, hregs .rbp nofun]
    · rw [hrsp, htop]
    · rw [hm, hshape]
    · rw [hm, hrsp, htop]
      exact hstacked
  have htape : tapeSpan s tape.length = ⟨c.get .rdi, tape.length⟩ := by
    rw [tapeSpan, hentered.tape]
  refine ⟨s, ?_, hentered, ⟨h.length_le, ?_, ?_, ?_, ?_⟩, ⟨rfl, ?_, fun _ _ _ => rfl, rfl, ?_,
    fun _ _ => rfl⟩⟩
  · have happend := Cpu.follow_append c ([Reg.rbx, .r12, .r13, .r14, .r15].map .push)
      [.mov .qword .rbx .rdi, .mov .qword .r14 .rsi, .load .r12 .rsi, .mov .qword .r13 .rdx]
    rw [hf] at happend
    exact happend.trans hs
  · rw [htape]
    exact h.covers_tape.of_shape hentered.shape
  · exact (h.covers_frame.mono hentered.inside_below).of_shape hentered.shape
  · rw [htape]
    exact h.tape_frame.mono (fun _ hx => hx) hentered.inside_below
  · rw [htape]
    exact h.tape_frame.mono (fun _ hx => hx) hentered.inside_saved
  · rw [hr12, hrsi, ← h.pointer]
    exact Memory.loadWord_congr fun x hx => hload x (h.pointer_frame x hx)
  · rw [hentered.tape, hm]
    exact h.carries.congr fun x hx => hload x (h.tape_frame x hx)

/-! ## Out of the body -/

/-- What the prologue has pushed is popped, and the registers of the caller are put back. -/
theorem follow_restore {b : Cpu} {back : UInt64} (htop : b.get .rsp = c.get .rsp - 40)
    (hbase : b.get .rbp = c.get .rbp)
    (hs : b.memory.Stacked (c.get .rsp - 40)
      [c.get .r15, c.get .r14, c.get .r13, c.get .r12, c.get .rbx, back])
    (hc : b.memory.Covers ⟨c.get .rsp - 40, 40⟩) :
    ∃ b', b.follow [.pop .r15, .pop .r14, .pop .r13, .pop .r12, .pop .rbx] = .running b' ∧
      b'.get .rax = b.get .rax ∧ (∀ q : Reg, q.isCalleeSaved → b'.get q = c.get q) ∧
      b'.memory = b.memory ∧ b.memory.loadWord (c.get .rsp) = back := by
  rw [← htop] at hs hc
  obtain ⟨h15, h14, h13, h12, hbx, hret, -⟩ := hs
  have hrsp : b.get .rsp + 8 + 8 + 8 + 8 + 8 = c.get .rsp := by
    rw [htop]
    simp only [UInt64.add_assoc, UInt64.reduceAdd, UInt64.sub_add_cancel]
  have hsaved : b.memory.Stacked (b.get .rsp)
      [c.get .r15, c.get .r14, c.get .r13, c.get .r12, c.get .rbx] :=
    ⟨h15, h14, h13, h12, hbx, trivial⟩
  obtain ⟨b', hf, hrsp', hm, hother, hpopped⟩ :=
    @Cpu.follow_pops [.r15, .r14, .r13, .r12, .rbx] (by decide) (by decide) b _ rfl hsaved hc
  simp only [List.map_cons, List.map_nil, List.cons.injEq, and_true] at hpopped
  obtain ⟨p15, p14, p13, p12, pbx⟩ := hpopped
  refine ⟨b', hf, hother .rax (by decide) (by decide), fun q hq => ?_, hm, by rw [← hret, hrsp]⟩
  cases q with
  | rbx => exact pbx
  | rsp =>
    rw [hrsp', ← hrsp]
    simp only [UInt64.add_assoc]
    rfl
  | rbp => rw [hother .rbp (by decide) (by decide), hbase]
  | r12 => exact p12
  | r13 => exact p13
  | r14 => exact p14
  | r15 => exact p15
  | rax | rcx | rdx | rsi | rdi | r8 | r9 | r10 | r11 => cases hq

/-- The registers and the memory of the caller are put back, and the pointer is written back. -/
theorem follow_leave (h : Called c tape) (he : Entered c s) {tape' : Tape} {b : Cpu}
    (hw : Within s tape.length tape' b) :
    ∃ b', b.follow [.store .r14 .r12, .pop .r15, .pop .r14, .pop .r13, .pop .r12, .pop .rbx] =
        .running b' ∧
      b'.get .rax = b.get .rax ∧ (∀ q : Reg, q.isCalleeSaved → b'.get q = c.get q) ∧
      b'.memory.shape = c.memory.shape ∧ b'.memory.Carries (c.get .rdi) tape'.cells ∧
      b'.memory.loadWord (c.get .rsi) = tape'.pointer.toUInt64 ∧
      b'.memory.loadWord (c.get .rsp) = c.memory.loadWord (c.get .rsp) := by
  have hshape : b.memory.shape = c.memory.shape := hw.shape.trans he.shape
  have hr14 : b.get .r14 = c.get .rsi := (hw.saved .r14 rfl (by decide)).trans he.slot
  have hrsp : b.get .rsp = c.get .rsp - 40 := (hw.saved .rsp rfl (by decide)).trans he.top
  have hslot : b.memory.Covers ⟨c.get .rsi, 8⟩ := h.covers_pointer.of_shape hshape
  obtain ⟨b₁, hs, hregs, hm⟩ := @Cpu.execute_store
    (b.skip (Instr.store .r14 .r12).size.toUInt64) .r14 .r12 (by simpa [hr14] using hslot)
  simp only [Cpu.get_skip, Cpu.memory_skip, hr14, hw.pointer] at hregs hm
  have hload (x : UInt64) (hx : ¬ Has ⟨c.get .rsi, 8⟩ x) : b₁.memory.load x = b.memory.load x := by
    rw [hm, Memory.load_storeWord _ _ hx]
  have hstack : b₁.memory.Stacked (c.get .rsp - 40) [c.get .r15, c.get .r14, c.get .r13,
      c.get .r12, c.get .rbx, c.memory.loadWord (c.get .rsp)] := by
    rw [← he.top]
    refine he.stacked.congr fun x hx => ?_
    -- neither the body nor the write to the slot has touched what the prologue saved
    have hframe := he.inside_saved x hx
    rw [hload x fun hp => h.pointer_frame x hp hframe, hw.kept x hx]
  have hcovers : b₁.memory.Covers ⟨c.get .rsp - 40, 40⟩ := by
    refine (h.covers_frame.mono (inside_saved c)).of_shape ?_
    rw [hm, Memory.shape_storeWord, hshape]
  obtain ⟨b', hf, hrax, hsaved, hm', hret⟩ := follow_restore ((hregs .rsp).trans hrsp)
    (by rw [hregs, hw.saved .rbp rfl (by decide), he.frameBase]) hstack hcovers
  refine ⟨b', (Cpu.follow_cons hs _).trans hf, by rw [hrax, hregs], hsaved, ?_, ?_, ?_, ?_⟩
  · rw [hm', hm, Memory.shape_storeWord, hshape]
  · rw [hm']
    have hcells := hw.carries
    rw [he.tape] at hcells
    refine hcells.congr fun x hx => hload x fun hp => ?_
    rw [show tape'.cells.size = tape.length from hw.length_eq] at hx
    exact h.tape_pointer x hx hp
  · rw [hm', hm, Memory.loadWord_storeWord hslot]
  · rw [hm', hret]

section Exits

variable {I : Interface} {S R σ : Type} {step : S → Action I S R} {d : Device I σ} {text : Text}
  {inj : Cpu → S} {place : Target → Nat} {k : Nat} {tape' : Tape} {b : Cpu}

/-- Behind the code that both exits share is the one after a failure, which goes back to it. -/
theorem parts_of_epilogue (hc : text.HasAt place k Block.epilogue) :
    ∃ shared failed, shared = k + codeSize [.xor .dword .rax .rax] ∧
      failed = shared + codeSize Block.leave ∧
      text.HasAt place k (Block.plain [.xor .dword .rax .rax]) ∧
      text.HasAt place shared (Block.plain Block.leave) ∧ place .fail = failed ∧
      text.HasAt place failed (Block.plain [.movImm32 .rax 1]) ∧
      text.HasAt place (failed + codeSize [.movImm32 .rax 1])
        [.instr (Block.jumpBack (Block.leave ++ [.movImm32 .rax 1]))] := by
  have hsplit : Block.epilogue = Block.plain [.xor .dword .rax .rax] ++ (Block.plain Block.leave ++
      .mark .fail :: (Block.plain [.movImm32 .rax 1] ++
        [.instr (Block.jumpBack (Block.leave ++ [.movImm32 .rax 1]))])) := rfl
  rw [hsplit, Text.hasAt_append, Text.hasAt_append, Fragment.sizes_plain, Fragment.sizes_plain] at hc
  obtain ⟨hfirst, hshared, hfail, hc⟩ := hc
  rw [Text.hasAt_append, Fragment.sizes_plain] at hc
  exact ⟨_, _, rfl, rfl, hfirst, hshared, hfail, hc⟩

variable (hr : Drives step text inj) (h : Called c tape) (he : Entered c s)
include hr h he

/-- The part that both exits share. -/
theorem reaches_leave (hc : text.HasAt place k (Block.plain Block.leave))
    (hip : b.ip = text.address k) (hw : Within s tape.length tape' b) (w : σ) :
    ∃ n b', Reaches step d n (inj b) w (inj b') w ∧
      Returned c tape.length tape' (b.get .rax) b' := by
  obtain ⟨b₁, hf, hrax, hsaved, hshape, hcarries, hpointer, hret⟩ := follow_leave h he hw
  have hrsp : b₁.get .rsp = c.get .rsp := hsaved .rsp rfl
  have hsplit : Block.plain Block.leave =
      Block.plain [.store .r14 .r12, .pop .r15, .pop .r14, .pop .r13, .pop .r12, .pop .rbx] ++
        [.instr .ret] := rfl
  rw [hsplit, Text.hasAt_append, Fragment.sizes_plain] at hc
  obtain ⟨hr₁, hip₁⟩ := exists_follow (d := d) hr hc.1 (by simp [Instr.IsStraight]) hip hf w
  have hcovers : b₁.memory.Covers ⟨c.get .rsp, 8⟩ :=
    (h.covers_frame.mono (inside_back c)).of_shape hshape
  obtain ⟨b₂, hexec, hip₂, htop₂, hregs₂, hm₂⟩ := @Cpu.execute_ret
    (b₁.skip Instr.ret.size.toUInt64) (by simpa [hrsp] using hcovers)
  simp only [Cpu.get_skip, Cpu.memory_skip, hrsp, hret] at hip₂ htop₂ hregs₂ hm₂
  have hr₂ := reaches_instr (d := d) hr hc.2 hip₁ hexec w
  refine ⟨_, b₂, hr₁.trans hr₂, hw.length_eq, hip₂, ?_, htop₂, fun q hq hne => ?_, ?_, ?_, ?_⟩
  · rw [hregs₂ .rax (by decide), hrax]
  · rw [hregs₂ q hne, hsaved q hq]
  · rw [hm₂, hshape]
  · rw [hm₂]
    exact hcarries
  · rw [hm₂, hpointer]

/-- The exit behind the body. -/
theorem reaches_epilogue (hc : text.HasAt place k Block.epilogue) (hip : b.ip = text.address k)
    (hw : Within s tape.length tape' b) (w : σ) :
    ∃ n b', Reaches step d n (inj b) w (inj b') w ∧ Returned c tape.length tape' 0 b' := by
  obtain ⟨_, _, rfl, -, hfirst, hleave, -⟩ := parts_of_epilogue hc
  obtain ⟨b₁, hf, hm, hrax, hregs⟩ : ∃ b₁, b.follow [.xor .dword .rax .rax] = .running b₁ ∧
      b₁.memory = b.memory ∧ b₁.get .rax = 0 ∧ ∀ q : Reg, q ≠ .rax → b₁.get q = b.get q :=
    ⟨_, rfl, rfl, by simp [Cpu.get_set], fun q hq => by simp [Cpu.get_set, hq]⟩
  obtain ⟨hr₁, hip₁⟩ := exists_follow (d := d) hr hfirst (by simp [Instr.IsStraight]) hip hf w
  obtain ⟨n, b', hr₂, hret⟩ := reaches_leave (d := d) hr h he hleave hip₁
    (hw.of_regs hm fun q hq => hregs q (by rintro rfl; cases hq)) w
  rw [hrax] at hret
  exact ⟨_, b', hr₁.trans hr₂, hret⟩

/-- The exit after a failure. -/
theorem reaches_fail (hc : text.HasAt place k Block.epilogue)
    (hip : b.ip = text.address (place .fail)) (hw : Within s tape.length tape' b) (w : σ) :
    ∃ n b', Reaches step d n (inj b) w (inj b') w ∧ Returned c tape.length tape' 1 b' := by
  obtain ⟨start, _, -, rfl, -, hleave, hfail, hstatus, hc⟩ := parts_of_epilogue hc
  rw [hfail] at hip
  obtain ⟨b₁, hf, hm, hrax, hregs⟩ : ∃ b₁, b.follow [.movImm32 .rax 1] = .running b₁ ∧
      b₁.memory = b.memory ∧ b₁.get .rax = 1 ∧ ∀ q : Reg, q ≠ .rax → b₁.get q = b.get q :=
    ⟨_, rfl, rfl, by simp [Cpu.get_set], fun q hq => by simp [Cpu.get_set, hq]⟩
  obtain ⟨hr₁, hip₁⟩ := exists_follow (d := d) hr hstatus (by simp [Instr.IsStraight]) hip hf w
  obtain ⟨dist, hjump, haddress⟩ := @Text.address_jumpBack text start
    (Block.leave ++ [.movImm32 .rax 1]) (by decide)
  rw [hjump] at hc haddress
  have hr₂ := reaches_instr (d := d) hr hc hip₁ rfl w
  have hip₂ : ((b₁.skip (Instr.branch .jump dist).size.toUInt64).skip (signed32 dist)).ip =
      text.address start := by
    rw [Cpu.ip_skip, Cpu.ip_skip, hip₁, ← haddress]
    rfl
  obtain ⟨n, b', hr₃, hret⟩ := reaches_leave (d := d) hr h he hleave hip₂
    (hw.of_regs (by simpa using hm) fun q hq => by
      simpa using hregs q (by rintro rfl; cases hq)) w
  rw [Cpu.get_skip, Cpu.get_skip, hrax] at hret
  exact ⟨_, b', (hr₁.trans hr₂).trans hr₃, hret⟩

end Exits

end TapeLang.Native
