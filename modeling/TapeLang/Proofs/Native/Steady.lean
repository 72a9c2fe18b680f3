import TapeLang.Proofs.Native.Safety
import TapeLang.Proofs.Tree.Parser

/-!
# The body of a routine is safe

Whatever its hooks do, a routine keeps in its body the addresses and the context that it was given,
the stack that its prologue has built, and a pointer inside the tape. The code of each command is
safe if what follows it is, and so is the code of a tree, if the labels in it are safe for fewer
moves.

* `Routine.Settled`: all of it but for the pointer, which is out of range in the middle of a move.
* `Routine.Steady`: what holds between the commands. `Routine.Ready`: the context is ready for a
  hook.
* `Routine.guards_command`, `Routine.guards_tree`: the body is safe.
-/

namespace TapeLang.Routine

open X86 Native Span

/-- A routine that was called in `e` has what its prologue has set up. -/
structure Settled (e c : Cpu) : Prop where
  tape : c.get .rbx = e.get .rdi
  slot : c.get .r14 = e.get .rsi
  context : c.get .r13 = e.get .rdx
  frameBase : c.get .rbp = e.get .rbp
  top : c.get .rsp = e.get .rsp - 40
  covers : ∀ x, e.memory.covers x → c.memory.covers x
  stacked : c.memory.Stacked (e.get .rsp - 40)
    [e.get .r15, e.get .r14, e.get .r13, e.get .r12, e.get .rbx, e.memory.loadWord (e.get .rsp)]

/-- The same, and the pointer is inside the tape. -/
structure Steady (r : Routine) (e c : Cpu) : Prop extends Settled e c where
  pointer : (c.get .r12).toNat < r.tapeLength

/-- The same, and the context is where a hook expects it. -/
structure Ready (r : Routine) (e c : Cpu) : Prop extends Steady r e c where
  argument : c.get .rdi = e.get .rdx

/-- In the middle of a move: the pointer has been compared with the length of the tape, which it may
have passed once. -/
structure Compared (r : Routine) (e c : Cpu) : Prop extends Settled e c where
  pointer : (c.get .r12).toNat < 2 * r.tapeLength
  below : c.flags.holds .below = decide ((c.get .r12).toNat < r.tapeLength)

variable {r : Routine} {e b c c' : Cpu} {n k : Nat} {place : Target → Nat}

theorem savedFrame_inside (e : Cpu) : (savedFrame e).Inside (frame e) :=
  inside_of_sub (e.get .rsp) 48 40 (by omega)

/-- Neither the registers of the caller nor the saved part of the stack have changed. -/
theorem Settled.congr (h : Settled e c)
    (hs : ∀ q : Reg, q.isCalleeSaved → q ≠ .r12 → c'.get q = c.get q)
    (hc : ∀ x, c.memory.covers x → c'.memory.covers x)
    (hm : ∀ x, (savedFrame e).Has x → c'.memory.load x = c.memory.load x) : Settled e c' where
  tape := (hs .rbx rfl (by decide)).trans h.tape
  slot := (hs .r14 rfl (by decide)).trans h.slot
  context := (hs .r13 rfl (by decide)).trans h.context
  frameBase := (hs .rbp rfl (by decide)).trans h.frameBase
  top := (hs .rsp rfl (by decide)).trans h.top
  covers x hx := hc x (h.covers x hx)
  stacked := h.stacked.congr hm

theorem Settled.of_regs (h : Settled e c)
    (hs : ∀ q : Reg, q.isCalleeSaved → q ≠ .r12 → c'.get q = c.get q)
    (hm : c'.memory = c.memory) : Settled e c' :=
  h.congr hs (fun _ hx => hm ▸ hx) fun _ _ => by rw [hm]

theorem Steady.congr (h : r.Steady e c) (hs : ∀ q : Reg, q.isCalleeSaved → c'.get q = c.get q)
    (hc : ∀ x, c.memory.covers x → c'.memory.covers x)
    (hm : ∀ x, (savedFrame e).Has x → c'.memory.load x = c.memory.load x) : r.Steady e c' where
  toSettled := h.toSettled.congr (fun q hq _ => hs q hq) hc hm
  pointer := by
    rw [hs .r12 rfl]
    exact h.pointer

theorem Steady.of_regs (h : r.Steady e c) (hs : ∀ q : Reg, q.isCalleeSaved → c'.get q = c.get q)
    (hm : c'.memory = c.memory) : r.Steady e c' :=
  h.congr hs (fun _ hx => hm ▸ hx) fun _ _ => by rw [hm]

theorem Steady.jump (h : r.Steady e c) (a : UInt64) : r.Steady e (c.jump a) :=
  h.of_regs (fun _ _ => Cpu.get_jump ..) (Cpu.memory_jump ..)

/-- A register that nobody relies on is set. -/
theorem Steady.set (h : r.Steady e c) {q : Reg} (hq : q.isCalleeSaved = false) (size v : UInt64) :
    r.Steady e ((c.skip size).set q v) :=
  h.of_regs (fun p hp => by rw [Cpu.get_set_of_saved _ hp _ hq, Cpu.get_skip]) (by simp)

/-- So is another register than that of the first argument. -/
theorem Ready.set (h : r.Ready e c) {q : Reg} (hq : q.isCalleeSaved = false) (hne : q ≠ .rdi)
    (size v : UInt64) : r.Ready e ((c.skip size).set q v) where
  toSteady := h.toSteady.set hq size v
  argument := by rw [Cpu.get_set, if_neg hne.symm, Cpu.get_skip, h.argument]

/-- The context is passed on. -/
theorem Steady.pass (h : r.Steady e c) (size : UInt64) :
    r.Ready e ((c.skip size).set .rdi (c.get .r13)) where
  toSteady := h.set rfl size _
  argument := by rw [Cpu.get_set, if_pos rfl, h.context]

/-! ## The current cell -/

/-- The instruction `i` has the current cell for its operand. It changes no register but the one it
loads the cell into. -/
theorem Steady.runs_cell (h : r.Steady e c) (he : r.Invoked e) {i : Instr}
    (hi : i.mem? = some Block.cell)
    (hq : ∀ q m, i = .loadByte q m → q.isCalleeSaved = false) :
    r.Runs e (fun c' => r.Steady e c' ∧ ∀ q : Reg, (∀ m, i ≠ .loadByte q m) → c'.get q = c.get q)
      [i] c := by
  have haddress : c.address Block.cell = e.get .rdi + c.get .r12 := by
    rw [Cpu.address, Block.cell, h.tape]
  have hinside : Inside ⟨c.address Block.cell, 1⟩ ⟨e.get .rdi, r.tapeLength⟩ := by
    refine inside_of_offset (c.get .r12).toNat ?_ h.pointer
    rw [haddress, UInt64.add_comm, UInt64.add_sub_cancel]
  have hcell : Has ⟨e.get .rdi, r.tapeLength⟩ (c.address Block.cell) :=
    hinside _ (by simp [Has])
  obtain ⟨c', hexec, -, hregs⟩ := @Cpu.exists_execute_mem (c.skip i.size.toUInt64) i Block.cell hi
    (by simpa [address_skip] using h.covers _ (he.covers_tape _ hcell))
  have hkept := Cpu.kept_execute hexec
  rw [Cpu.written_skip, Cpu.memory_skip] at hkept
  refine ⟨⟨fun m hm => ?_, fun s hs => ?_, fun q hcall => ?_⟩, c', hexec,
    h.congr (fun q hsaved => ?_) (fun x hx => ?_) fun x hx => hkept.load x fun s hs hsx => ?_,
    fun q hload => ?_⟩
  · rw [hi] at hm
    cases hm
    exact ⟨haddress, h.pointer⟩
  · rw [Cpu.written_of_mem? hi hs]
    exact .inl hinside
  · rw [hcall] at hi
    cases hi
  · rw [hregs q fun m hload => ?_, Cpu.get_skip]
    have := hq q m hload
    rw [hsaved] at this
    cases this
  · rw [Memory.covers_of_shape hkept.shape]
    exact hx
  · rw [Cpu.written_of_mem? hi hs] at hsx
    exact he.tape_frame x (hinside x hsx) (savedFrame_inside e x hx)
  · rw [hregs q hload, Cpu.get_skip]

/-! ## Calls -/

/-- A call pushes to the word right below what the prologue has saved. -/
theorem Settled.sub_top (h : Settled e c) : c.get .rsp - 8 = e.get .rsp - 48 := by
  rw [h.top]
  exact sub_sub_bytes (e.get .rsp) 40 8

theorem Settled.covers_below (h : Settled e c) (he : r.Invoked e) :
    c.memory.Covers ⟨c.get .rsp - 8, 8⟩ := by
  rw [h.sub_top]
  exact fun x hx => h.covers x (he.covers_frame x (inside_of_le (by omega) x hx))

theorem Settled.confined_call (h : Settled e c) (he : r.Invoked e) {q : Reg}
    (hhook : c.get q = r.host.readHook ∨ c.get q = r.host.writeHook) :
    r.Confined e c (.callReg q) := by
  refine ⟨fun m hm => ?_, fun s hs => ?_, fun p hp => ?_⟩
  · cases hm
  · cases hs
    rw [h.sub_top]
    exact .inr (.inr (inside_of_le (by omega)))
  · cases hp
    refine ⟨?_, hhook⟩
    have halign := he.aligned
    rw [h.top]
    simp only [UInt64.toNat_sub, UInt64.toNat_add, UInt64.reduceToNat] at halign ⊢
    have := (e.get .rsp).toNat_lt
    omega

theorem Settled.execute_call (h : Settled e c) (he : r.Invoked e) (size : UInt64) (q : Reg) :
    ∃ c', (c.skip size).execute (.callReg q) = .running c' ∧ c'.ip = c.get q ∧
      c'.get .rsp = c.get .rsp - 8 ∧ (∀ p : Reg, p ≠ .rsp → c'.get p = c.get p) ∧
      c'.memory = c.memory.storeWord (c.get .rsp - 8) (c.ip + size) := by
  obtain ⟨c', hcall, hip, htop, hregs, hm⟩ := @Cpu.execute_callTo (c.skip size)
    (by simpa using h.covers_below he) (c.get q)
  simp only [Cpu.get_skip, Cpu.memory_skip, Cpu.ip_skip] at htop hregs hm
  exact ⟨c', by rw [← hcall, Cpu.execute, Cpu.get_skip], hip, htop, hregs, hm⟩

/-- A hook that was called from the body, whatever else it does, goes back to it. -/
theorem Steady.of_hookReturns (h : r.Steady e c) (he : r.Invoked e) {c₁ : Cpu} {back : UInt64}
    (htop : c₁.get .rsp = c.get .rsp - 8) (hregs : ∀ p : Reg, p ≠ .rsp → c₁.get p = c.get p)
    (hm : c₁.memory = c.memory.storeWord (c.get .rsp - 8) back) (hret : HookReturns e c₁ c') :
    c'.ip = back ∧ r.Steady e c' := by
  have hcovers := h.covers_below he
  have hapart : Apart (savedFrame e) ⟨c.get .rsp - 8, 8⟩ := by
    rw [savedFrame, ← h.top]
    exact apart_of_sub (c.get .rsp) 8 (by omega)
  refine ⟨?_, h.congr (fun p hp => ?_) (fun x hx => ?_) fun x hx => ?_⟩
  · rw [hret.ip, htop, hm, Memory.loadWord_storeWord hcovers]
  · by_cases hne : p = .rsp
    · subst hne
      rw [hret.top, htop, UInt64.sub_add_cancel]
    · rw [hret.registers p hp hne, hregs p hne]
  · refine hret.covers x ?_
    rw [hm, Memory.covers_of_shape (Memory.shape_storeWord ..)]
    exact hx
  · rw [hret.stack x hx, hm, Memory.load_storeWord _ _ (hapart x hx)]

/-! ## The pointer -/

theorem Settled.confined_writeBack (h : Settled e c) : r.Confined e c (.store .r14 .r12) := by
  refine ⟨fun m hm => ?_, fun s hs => ?_, fun q hq => ?_⟩
  · cases hm
  · cases hs
    rw [h.slot]
    exact .inr (.inl fun _ hx => hx)
  · cases hq

/-- The pointer is written back. -/
theorem Settled.execute_writeBack (h : Settled e c) (he : r.Invoked e) (size : UInt64) :
    ∃ c', (c.skip size).execute (.store .r14 .r12) = .running c' ∧ Settled e c' ∧
      c'.get .rax = c.get .rax ∧ c'.memory.loadWord (e.get .rsi) = c.get .r12 := by
  have hslot : c.memory.Covers ⟨e.get .rsi, 8⟩ := fun x hx => h.covers x (he.covers_pointer x hx)
  obtain ⟨c', hexec, hregs, hm⟩ := @Cpu.execute_store (c.skip size) .r14 .r12
    (by simpa [h.slot] using hslot)
  simp only [Cpu.get_skip, Cpu.memory_skip, h.slot] at hregs hm
  refine ⟨c', hexec, h.congr (fun q _ _ => hregs q) (fun x hx => ?_) (fun x hx => ?_),
    hregs .rax, ?_⟩
  · rw [hm, Memory.covers_of_shape (Memory.shape_storeWord ..)]
    exact hx
  · have hframe := savedFrame_inside e x hx
    rw [hm, Memory.load_storeWord _ _ fun hp => he.pointer_frame x hp hframe]
  · rw [hm, Memory.loadWord_storeWord hslot]

/-! ## Moves -/

theorem Settled.steady_of_move (h : Settled e c) (hs : ∀ q : Reg, q ≠ .r12 → c'.get q = c.get q)
    (hm : c'.memory = c.memory) (hp : (c'.get .r12).toNat < r.tapeLength) : r.Steady e c' :=
  ⟨h.of_regs (fun q _ hq => hs q hq) hm, hp⟩

section Rules

variable (hl : r.Linked) (hk : r.text.Boundary k)
include hl hk

/-- The end of a move: the length is subtracted if it has been reached. -/
theorem guards_wrap (hle : r.tapeLength ≤ maxTapeLength) {fs : List Fragment}
    (hfs : fs = .instr (.jumpShort .below 7) ::
      Block.plain [.alu .sub .r12 r.tapeLength.toUInt32.toInt32])
    (hc : r.text.HasAt place k fs) (next : r.Guards e b n (k + Fragment.sizes fs) (r.Steady e)) :
    r.Guards e b n k (r.Compared e) := by
  subst hfs
  refine guards_jumpShort (B := r.Steady e)
    (D := fun c => Settled e c ∧ r.tapeLength ≤ (c.get .r12).toNat ∧
      (c.get .r12).toNat < 2 * r.tapeLength) hl hk hc ?_ (fun c a h hflag => ?_)
    (fun c a h hflag => ?_) next ?_
  · rw [show signed8 7 = (7 : Nat).toUInt64 from rfl, Text.address_add]
    rfl
  · rw [h.below, decide_eq_true_iff] at hflag
    exact ⟨h.of_regs (fun _ _ _ => Cpu.get_jump ..) (Cpu.memory_jump ..), by rwa [Cpu.get_jump]⟩
  · rw [h.below, decide_eq_true_iff] at hflag
    refine ⟨h.of_regs (fun _ _ _ => Cpu.get_jump ..) (Cpu.memory_jump ..), ?_⟩
    rw [Cpu.get_jump]
    exact ⟨Nat.le_of_not_lt hflag, h.pointer⟩
  · refine guards_straight hl (hk.next hc.1) (by simp [Instr.IsStraight]) hc.2 (fun c h => ?_) next
    obtain ⟨hsettled, hge, hlt⟩ := h
    obtain ⟨c', hf, hm, hs, hp⟩ := follow_subtract c hle hge rfl
    exact runs_of_follow rfl hf (hsettled.steady_of_move hs hm (by omega))

theorem guards_move {count : Nat} (hn : count < r.tapeLength) {wrap : Wrap}
    (hwrap : Wrap.ofTapeLength r.tapeLength = .ok wrap)
    (hc : r.text.HasAt place k (Block.move count.toUInt32 wrap))
    (next : r.Guards e b n (k + Fragment.sizes (Block.move count.toUInt32 wrap)) (r.Steady e)) :
    r.Guards e b n k (r.Steady e) := by
  have hr12 (c : Cpu) : c.get .r12 = (c.get .r12).toNat.toUInt64 := UInt64.ofNat_toNat.symm
  obtain ⟨hle, ⟨hpow, rfl⟩ | ⟨-, rfl⟩⟩ := Wrap.ofTapeLength_eq_ok.mp hwrap
  case inl =>
    rw [Block.move, Fragment.sizes_plain] at next
    refine guards_straight hl hk (by simp [Instr.IsStraight]) hc (fun c h => ?_) next
    obtain ⟨c', hf, hm, hs, hp⟩ := follow_mask c hn hle hpow h.pointer (hr12 c)
    refine runs_of_follow rfl hf (h.steady_of_move hs hm ?_)
    rw [hp]
    exact Nat.mod_lt _ r.tapeLength_pos
  case inr =>
    obtain ⟨wrapOnce, hwrapOnce⟩ : ∃ wrapOnce : List Fragment, wrapOnce =
        .instr (.jumpShort .below 7) ::
          Block.plain [.alu .sub .r12 r.tapeLength.toUInt32.toInt32] := ⟨_, rfl⟩
    have hsplit : Block.move count.toUInt32 (.length r.tapeLength.toUInt32) =
        Block.plain [.alu .add .r12 count.toUInt32.toInt32,
          .alu .cmp .r12 r.tapeLength.toUInt32.toInt32] ++ wrapOnce := by
      rw [hwrapOnce]
      rfl
    rw [hsplit, Text.hasAt_append] at hc
    rw [hsplit, Fragment.sizes_append, ← Nat.add_assoc] at next
    have hsecond := guards_wrap hl (hk.behind hc.1) hle hwrapOnce hc.2 next
    rw [Fragment.sizes_plain] at hsecond
    refine guards_straight hl hk (by simp [Instr.IsStraight]) hc.1 (fun c h => ?_) hsecond
    obtain ⟨c', hf, hm, hs, hp, hflag⟩ := follow_compare c hn hle h.pointer (hr12 c)
    have := h.pointer
    exact runs_of_follow rfl hf
      ⟨h.toSettled.of_regs (fun q _ hq => hs q hq) hm, by omega, by rw [hflag, hp]⟩

/-! ## Cells and branches -/

variable (he : r.Invoked e)
include he

/-- One instruction on the current cell. -/
theorem guards_cell {i : Instr} {rest : List Fragment}
    (hc : r.text.HasAt place k (.instr i :: rest)) (hi : i.mem? = some Block.cell)
    (hq : ∀ q m, i = .loadByte q m → q.isCalleeSaved = false)
    (next : r.Guards e b n (k + i.size) (r.Steady e)) : r.Guards e b n k (r.Steady e) := by
  have hs : i.IsStraight := by
    cases i with
    | jumpShort | branch | callReg | ret | syscall => cases hi
    | _ => rfl
  have hplain : r.text.HasAt place k (Block.plain [i]) := ⟨hc.1, trivial⟩
  exact guards_straight hl hk (by simpa using hs) hplain
    (fun c h => (h.runs_cell he hi hq).mono fun _ h => h.1) next

theorem guards_branchIfZero {l : Label}
    (hc : r.text.HasAt place k [.instr (.aluByte .cmp Block.cell 0),
      .branch (.jumpIf .equal) (.label l)])
    (taken : r.GuardsBelow e b n (place (.label l)) (r.Steady e))
    (next : r.Guards e b n (k + Fragment.sizes [.instr (.aluByte .cmp Block.cell 0),
      .branch (.jumpIf .equal) (.label l)]) (r.Steady e)) : r.Guards e b n k (r.Steady e) := by
  rw [Fragment.sizes_cons, Fragment.sizes_cons, Fragment.sizes_nil, ← Nat.add_assoc] at next
  exact guards_cell hl hk he hc rfl (by simp)
    (guards_jumpIf hl (hk.next hc.1) hc.2 (fun _ a h => h.jump a) taken next)

/-! ## Transfers -/

/-- Whatever the hook does, the body goes on behind the call. -/
theorem guards_call {q : Reg} {rest : List Fragment}
    (hc : r.text.HasAt place k (.instr (.callReg q) :: rest))
    (next : r.Guards e b n (k + (Instr.callReg q).size) (r.Steady e)) :
    r.Guards e b n k fun c => r.Ready e c ∧
      (c.get q = r.host.readHook ∨ c.get q = r.host.writeHook) := by
  rintro c hp hip ⟨⟨h, hargument⟩, hhook⟩
  have hconfined := h.confined_call he hhook
  obtain ⟨c₁, hexec, hip₁, htop, hregs, hm⟩ :=
    h.execute_call he (Instr.callReg q).size.toUInt64 q
  refine secure_instr hl hk hip hc.1 hconfined hexec fun m hm' hmove => ?_
  have hat : r.AtHook c₁ := by
    rw [AtHook, hip₁]
    exact hhook
  have hcalled : HookCalled e c₁ := by
    refine ⟨?_, ?_, ?_⟩
    · rw [htop, h.sub_top]
    · rw [htop, UInt64.sub_add_cancel]
      exact (hconfined.calls q rfl).1
    · rw [hregs .rdi (by decide), hargument]
  refine secure_hook hl hat hcalled fun m' hm'' c₂ hmove₂ hret => ?_
  obtain ⟨hip₂, h₂⟩ := h.of_hookReturns he htop hregs hm hret
  refine next.mono (by omega) c₂ ((hp.tail hmove).tail hmove₂) ?_ h₂
  rw [hip₂, hip, Text.address_add]

/-- A hook is called, and its result tested, by code that has its arguments ready behind
`arguments`. -/
theorem guards_callHook {address : UInt64}
    (hhook : address = r.host.readHook ∨ address = r.host.writeHook) {arguments : List Instr}
    (hs : ∀ i ∈ arguments, i.IsStraight)
    (hargs : ∀ c, r.Ready e c → r.Runs e (r.Ready e) arguments c)
    (hc : r.text.HasAt place k (Block.callHook address arguments))
    (next : r.Guards e b n (k + Fragment.sizes (Block.callHook address arguments)) (r.Steady e)) :
    r.Guards e b n k (r.Steady e) := by
  obtain ⟨before, hbefore⟩ : ∃ before : List Instr,
      before = .mov .qword .rdi .r13 :: (arguments ++ [.movImm64 .rax address]) := ⟨_, rfl⟩
  have hsplit : Block.callHook address arguments = Block.plain before ++
      (.instr (.callReg .rax) :: Block.plain [.test .dword .rax .rax]) := by
    simp [Block.callHook, Block.plain, hbefore]
  rw [hsplit, Fragment.sizes_append, Fragment.sizes_cons, ← Nat.add_assoc, ← Nat.add_assoc,
    Fragment.sizes_plain, Fragment.sizes_plain] at next
  rw [hsplit, Text.hasAt_append] at hc
  have hk₁ := hk.behind hc.1
  obtain ⟨hc₁, hc₂⟩ := hc
  rw [Fragment.sizes_plain] at hk₁ hc₂
  have htest : ∀ c, r.Steady e c → r.Runs e (r.Steady e) [.test .dword .rax .rax] c := fun c h =>
    runs_of_follow rfl rfl
      (h.of_regs (fun q _ => by simp) (by simp))
  have hset : ∀ c, r.Ready e c → r.Runs e (fun c => r.Ready e c ∧
      (c.get .rax = r.host.readHook ∨ c.get .rax = r.host.writeHook))
        [.movImm64 .rax address] c := by
    intro c h
    refine runs_of_follow rfl rfl ⟨h.set rfl (by decide) _ _, ?_⟩
    simpa [Cpu.get_set] using hhook
  refine guards_straight hl hk ?_ hc₁ (fun c h => ?_) (guards_call hl hk₁ he hc₂
    (guards_straight hl (hk₁.next hc₂.1) (by simp [Instr.IsStraight]) hc₂.2 htest next))
  · intro i hi
    rw [hbefore, List.mem_cons, List.mem_append, List.mem_singleton] at hi
    rcases hi with rfl | hi | rfl
    · rfl
    · exact hs i hi
    · rfl
  · rw [hbefore]
    exact ⟨.of_isQuiet rfl, _, rfl, runs_append.mpr ((hargs _ (h.pass _)).mono hset)⟩

theorem guards_read {index : UInt32} (hc : r.text.HasAt place k (Block.read index r.host.linkage))
    (hfail : r.GuardsBelow e b n (place .fail) (r.Steady e))
    (next : r.Guards e b n (k + Fragment.sizes (Block.read index r.host.linkage)) (r.Steady e)) :
    r.Guards e b n k (r.Steady e) := by
  have hsplit : Block.read index r.host.linkage =
      Block.callHook r.host.readHook [.movImm32 .rsi index] ++
        [.branch (.jumpIf .sign) .fail, .instr (.storeByte Block.cell .rax)] := rfl
  rw [hsplit, Fragment.sizes_append, ← Nat.add_assoc, Fragment.sizes_cons, ← Nat.add_assoc] at next
  rw [hsplit, Text.hasAt_append] at hc
  obtain ⟨hcall, hbranch⟩ := hc
  have hk₁ := hk.behind hcall
  have htest : r.text.HasAt place _ [.branch (.jumpIf .sign) .fail] := ⟨hbranch.1, trivial⟩
  have hk₂ := hk₁.behind htest
  refine guards_callHook hl hk he (.inl rfl) (by simp [Instr.IsStraight]) (fun c h => ?_) hcall
    (guards_jumpIf hl hk₁ hbranch (fun _ a h => h.jump a) hfail
      (guards_cell hl hk₂ he hbranch.2 rfl (by simp) next))
  exact runs_of_follow rfl rfl (h.set rfl (by decide) _ _)

theorem guards_write {index : UInt32}
    (hc : r.text.HasAt place k (Block.write index r.host.linkage))
    (hfail : r.GuardsBelow e b n (place .fail) (r.Steady e))
    (next : r.Guards e b n (k + Fragment.sizes (Block.write index r.host.linkage)) (r.Steady e)) :
    r.Guards e b n k (r.Steady e) := by
  have hsplit : Block.write index r.host.linkage =
      Block.callHook r.host.writeHook [.loadByte .rsi Block.cell, .movImm32 .rdx index] ++
        [.branch (.jumpIf .notEqual) .fail] := rfl
  rw [hsplit, Fragment.sizes_append, ← Nat.add_assoc] at next
  rw [hsplit, Text.hasAt_append] at hc
  obtain ⟨hcall, hbranch⟩ := hc
  refine guards_callHook hl hk he (.inr rfl) (by simp [Instr.IsStraight]) (fun c h => ?_) hcall
    (guards_jumpIf hl (hk.behind hcall) hbranch (fun _ a h => h.jump a) hfail next)
  have hload := h.runs_cell he (i := .loadByte .rsi Block.cell) rfl (by simp [Reg.isCalleeSaved])
  refine runs_append.mpr (hload.mono fun c' h' => ?_)
  have hready : r.Ready e c' := ⟨h'.1, by rw [h'.2 .rdi (by simp), h.argument]⟩
  exact runs_of_follow rfl rfl (hready.set rfl (by decide) _ _)

/-! ## Trees -/

variable {wrap : Wrap} (hwrap : Wrap.ofTapeLength r.tapeLength = .ok wrap)
include hwrap

theorem guards_command {c : Command} {index : Nat} (hred : c.Reduced r.tapeLength)
    (hc : r.text.HasAt place k (Block.ofOperation r.host.linkage (c.operation wrap index)))
    (hfail : r.GuardsBelow e b n (place .fail) (r.Steady e))
    (next : r.Guards e b n (k + Fragment.sizes
      (Block.ofOperation r.host.linkage (c.operation wrap index))) (r.Steady e)) :
    r.Guards e b n k (r.Steady e) := by
  cases c with
  | move count => exact guards_move hl hk hred hwrap hc next
  | add v => exact guards_cell hl hk he hc rfl (by simp) next
  | reset => exact guards_cell hl hk he hc rfl (by simp) next
  | read => exact guards_read hl hk he hc hfail next
  | write => exact guards_write hl hk he hc hfail next

/-- The code of a tree is safe if what is behind it is, and its labels are safe for fewer moves.
Then its labels are safe for as many moves. -/
theorem guards_tree (t : Tree) {index fresh : Nat} (hred : t.Reduced r.tapeLength)
    (hc : r.text.HasAt place k (t.fragments r.host.linkage wrap index fresh))
    (hfail : r.GuardsBelow e b n (place .fail) (r.Steady e))
    (hlabels : ∀ l ∈ Fragment.marks (t.fragments r.host.linkage wrap index fresh),
      r.GuardsBelow e b n (place l) (r.Steady e))
    (next : r.Guards e b n (k + Fragment.sizes (t.fragments r.host.linkage wrap index fresh))
      (r.Steady e)) :
    r.Guards e b n k (r.Steady e) ∧
      ∀ l ∈ Fragment.marks (t.fragments r.host.linkage wrap index fresh),
        r.Guards e b n (place l) (r.Steady e) := by
  induction t generalizing k index fresh with
  | nil => exact ⟨next, fun l h => by cases h⟩
  | command c position rest ih =>
    rw [Tree.fragments_command] at hc hlabels next ⊢
    rw [Fragment.marks_append, Tree.marks_ofOperation, List.nil_append] at hlabels ⊢
    rw [Text.hasAt_append] at hc
    rw [Fragment.sizes_append, ← Nat.add_assoc] at next
    obtain ⟨hrest, hmarks⟩ := ih (hk.behind hc.1) hred.2 hc.2 hlabels next
    exact ⟨guards_command hl hk he hwrap hred.1 hc.1 hfail hrest, hmarks⟩
  | loop opening closing body rest ihb ihr =>
    rw [Tree.fragments_loop] at hc hlabels next ⊢
    simp only [Block.ofOperation, Fragment.marks_mark, Fragment.marks_append, Fragment.marks_instr,
      Fragment.marks_branch, Fragment.marks_nil, List.nil_append, List.mem_cons,
      List.mem_append] at hlabels ⊢
    obtain ⟨htop, hc⟩ := hc
    rw [Text.hasAt_append, Text.hasAt_append] at hc
    obtain ⟨htest, hbody, hjump, hbehind, hrest⟩ := hc
    have hk₁ := hk.behind htest
    have hk₂ := hk₁.behind hbody
    have hback : r.text.HasAt place _ [.branch .jump (.label fresh)] := ⟨hjump, trivial⟩
    have hend : k + Fragment.sizes (Block.ofOperation r.host.linkage (.branchIfZero (fresh + 1))) +
        Fragment.sizes (body.fragments r.host.linkage wrap (index + 1) (fresh + 2)) +
        Fragment.sizes [.branch .jump (.label fresh)] +
        Fragment.sizes (rest.fragments r.host.linkage wrap (index + 1 + body.flatten.length + 1)
          (fresh + 2 + 2 * body.loops)) =
        k + Fragment.sizes ((Tree.loop opening closing body rest).fragments r.host.linkage wrap
          index fresh) := by
      simp only [Tree.fragments_loop, Fragment.sizes_cons, Fragment.sizes_append,
        Fragment.sizes_nil, Fragment.size]
      omega
    rw [← Tree.fragments_loop opening closing, ← hend] at next
    -- from the end to the start: each part is safe since what is behind it is
    obtain ⟨hbelow, hrestMarks⟩ := ihr (hk₂.behind hback) hred.2 hrest
      (fun l h => hlabels l (.inr (.inr (.inr h)))) next
    have hbottom := guards_jump hl hk₂ hback (fun _ a h => h.jump a)
      (hlabels (.label fresh) (.inl rfl))
    obtain ⟨hinner, hbodyMarks⟩ := ihb hk₁ hred.1 hbody
      (fun l h => hlabels l (.inr (.inl h))) hbottom
    have hstart := guards_branchIfZero hl hk he htest
      (hlabels (.label (fresh + 1)) (.inr (.inr (.inl rfl)))) hinner
    refine ⟨hstart, fun l h => ?_⟩
    rcases h with rfl | h | rfl | h
    · rw [htop]
      exact hstart
    · exact hbodyMarks l h
    · rw [hbehind]
      exact hbelow
    · exact hrestMarks l h

end Rules

end TapeLang.Routine
