import TapeLang.Proofs.Native.Program
import TapeLang.Routine

/-!
# Hooks

A routine in another process reads and writes by calls of hooks. A hook needs its context. It keeps
the registers that belong to its caller, changes nothing but the stack below the address that it
returns to, and says by its result whether the transfer has failed.

* `Routine.Linked`: the hooks and the caller are outside the code, and apart.
* `Routine.Equipped`: there is a context and a stack for hooks.
* `reaches_hook`: a hook is called, and whatever it returns, the body goes on behind the call.
* `Resumes.reaches_test`: the result decides whether it goes on or fails.
* `InHook`: how a hook is called. `Mimics`: a machine that need not do what the routine does if a
  hook is called in another way.
* `transfers`: reads and writes by hooks do what the tree says.
-/

namespace TapeLang.Routine

open X86 Native

/-! ## Steps outside the code -/

structure Linked (r : Routine) : Prop where
  readHook : r.text.fetch? r.host.readHook = none
  writeHook : r.text.fetch? r.host.writeHook = none
  back : r.text.fetch? r.host.back = none
  readHook_ne_back : r.host.readHook ≠ r.host.back
  writeHook_ne_back : r.host.writeHook ≠ r.host.back
  writeHook_ne_readHook : r.host.writeHook ≠ r.host.readHook

variable {r : Routine} {f : Frame} {c : Cpu}

theorem drives (r : Routine) (f : Frame) : Drives r.step r.text (.native f) := by
  intro c c' i n hfetch he
  simp only [step, Cpu.fetch?, hfetch, he]
  rfl

theorem step_outside (h : r.text.fetch? c.ip = none) : r.step (.native f c) = r.outside f c := by
  simp only [step, Cpu.fetch?, h]

theorem step_atReadHook (h : r.Linked) (hip : c.ip = r.host.readHook) :
    r.step (.native f c) =
      r.hooked f c true (r.positions[(c.get .rsi).toUInt32.toNat]?.join) .prompt := by
  rw [step_outside (hip ▸ h.readHook), outside, hip, if_neg h.readHook_ne_back, if_pos rfl]

theorem step_atWriteHook (h : r.Linked) (hip : c.ip = r.host.writeHook) :
    r.step (.native f c) = r.hooked f c false none (.offer (c.get .rsi).toUInt8) := by
  rw [step_outside (hip ▸ h.writeHook), outside, hip, if_neg h.writeHook_ne_back,
    if_neg h.writeHook_ne_readHook, if_pos rfl]

theorem step_read (h : r.Linked) (hip : c.ip = r.host.readHook)
    (hc : c.get .rdi = r.host.context) :
    r.step (.native f c) = .next (.calling f c true
      (r.positions[(c.get .rsi).toUInt32.toNat]?.join) .prompt) := by
  rw [step_atReadHook h hip, hooked, if_pos hc]

theorem step_write (h : r.Linked) (hip : c.ip = r.host.writeHook)
    (hc : c.get .rdi = r.host.context) :
    r.step (.native f c) = .next (.calling f c false none (.offer (c.get .rsi).toUInt8)) := by
  rw [step_atWriteHook h hip, hooked, if_pos hc]

theorem step_back (h : r.Linked) (hip : c.ip = r.host.back) :
    r.step (.native f c) = r.returned f c := by
  rw [step_outside (hip ▸ h.back), outside, if_pos hip]

/-! ## The return from a hook -/

theorem toUInt32_lowerHalf (v : UInt64) (result : UInt32) :
    ((v &&& 0xFFFFFFFF00000000) ||| result.toUInt64).toUInt32 = result := by
  apply UInt32.toNat_inj.mp
  rw [UInt64.toNat_toUInt32, UInt64.toNat_or, UInt64.toNat_and, Nat.or_mod_two_pow,
    Nat.and_mod_two_pow]
  simp

theorem get_foldl_keep (c : Cpu) (g : Registers) (q : Reg) (l : List Reg) :
    (l.foldl (fun g q => if q.isCalleeSaved then g.set q (c.get q) else g) g).get q =
      if q ∈ l ∧ q.isCalleeSaved then c.get q else g.get q := by
  induction l generalizing g with
  | nil => simp
  | cons p l ih =>
    rw [List.foldl_cons, ih]
    by_cases hp : q = p
    · subst hp
      by_cases hq : q.isCalleeSaved
      · simp [hq]
      · simp [hq]
    · have hother : (if p.isCalleeSaved then g.set p (c.get p) else g).get q = g.get q := by
        by_cases hsaved : p.isCalleeSaved
        · rw [if_pos hsaved, Registers.get_set_ne g hp]
        · rw [if_neg hsaved]
      simp only [hother, List.mem_cons, hp, false_or]

/-- The registers that belong to the caller are put back. -/
theorem get_keep (c : Cpu) (g : Registers) (q : Reg) :
    (Reg.all.foldl (fun g q => if q.isCalleeSaved then g.set q (c.get q) else g) g).get q =
      if q.isCalleeSaved then c.get q else g.get q := by
  have hmem : q ∈ Reg.all.toList := by cases q <;> simp [Reg.all]
  rw [← Array.foldl_toList, get_foldl_keep]
  simp only [hmem, true_and]

/-- The stack below `top`, which a hook may use that is called there. -/
def spare (h : Host) (top : UInt64) : Span := ⟨h.stack, (top - h.stack).toNat⟩

theorem shape_usedStack (r : Routine) (c : Cpu) : (r.usedStack c).shape = c.memory.shape :=
  Memory.shape_storeList ..

theorem load_usedStack (r : Routine) (c : Cpu) {x : UInt64}
    (hx : ¬ (spare r.host (c.get .rsp)).Has x) : (r.usedStack c).load x = c.memory.load x :=
  Memory.load_storeList _ fun h => hx (Span.inside_of_sub_top (List.length_take_le ..) x h)

/-- A return from a hook is a return with the registers of the caller put back. -/
theorem hookReturn_eq (r : Routine) (result : UInt32) (c : Cpu) :
    ∃ c₁ : Cpu, r.hookReturn result c = (c₁.pop fun target c => .running (c.jump target)) ∧
      c₁.memory = r.usedStack c ∧ (∀ q : Reg, q.isCalleeSaved → c₁.get q = c.get q) ∧
      (c₁.get .rax).toUInt32 = result := by
  obtain ⟨left, hleft⟩ : ∃ left, r.host.scratch c = left := ⟨_, rfl⟩
  obtain ⟨g, hg⟩ : ∃ g, left.registers.set .rax
    ((left.registers.rax &&& 0xFFFFFFFF00000000) ||| result.toUInt64) = g := ⟨_, rfl⟩
  obtain ⟨c₁, hc₁⟩ : ∃ c₁ : Cpu, { c with
    regs := Reg.all.foldl (fun g q => if q.isCalleeSaved then g.set q (c.get q) else g) g,
    flags := left.flags, memory := r.usedStack c } = c₁ := ⟨_, rfl⟩
  have hget (q : Reg) : c₁.get q = if q.isCalleeSaved then c.get q else g.get q := by
    rw [← hc₁]
    exact get_keep c g q
  have hrax : c₁.get .rax =
      (left.registers.rax &&& 0xFFFFFFFF00000000) ||| result.toUInt64 := by
    rw [hget, ← hg]
    rfl
  refine ⟨c₁, ?_, by rw [← hc₁], fun q hq => by rw [hget, if_pos hq], ?_⟩
  · rw [hookReturn, hleft, ← hc₁, ← hg]
  · rw [hrax]
    exact toUInt32_lowerHalf _ _

theorem exists_hookReturn (r : Routine) (result : UInt32)
    (hc : c.memory.Covers ⟨c.get .rsp, 8⟩)
    (hback : Span.Apart ⟨c.get .rsp, 8⟩ (spare r.host (c.get .rsp))) :
    ∃ c', r.hookReturn result c = .running c' ∧ c'.ip = c.memory.loadWord (c.get .rsp) ∧
      c'.get .rsp = c.get .rsp + 8 ∧
      (∀ q : Reg, q.isCalleeSaved → q ≠ .rsp → c'.get q = c.get q) ∧
      (c'.get .rax).toUInt32 = result ∧ c'.memory = r.usedStack c := by
  obtain ⟨c₁, hreturn, hm, hsaved, hrax⟩ := hookReturn_eq r result c
  have hrsp : c₁.get .rsp = c.get .rsp := hsaved .rsp rfl
  have hword : c₁.memory.Covers ⟨c₁.get .rsp, 8⟩ := by
    rw [hrsp, hm]
    exact hc.of_shape (shape_usedStack r c)
  obtain ⟨c', hexec, hip, htop, hregs, hm'⟩ := @Cpu.execute_ret c₁ hword
  refine ⟨c', hreturn.trans hexec, ?_, ?_, fun q hq hne => ?_, ?_, hm'.trans hm⟩
  · rw [hip, hm, hrsp]
    exact Memory.loadWord_congr fun x hx => load_usedStack r c (hback x hx)
  · rw [htop, hrsp]
  · rw [hregs q hne, hsaved q hq]
  · rw [hregs .rax (by decide), hrax]

/-- There is no other return: it needs the word that it is to go back to. -/
theorem covers_of_hookReturn {result : UInt32} {c' : Cpu}
    (h : r.hookReturn result c = .running c') : c.memory.Covers ⟨c.get .rsp, 8⟩ := by
  obtain ⟨c₁, hreturn, hm, hsaved, -⟩ := hookReturn_eq r result c
  rw [hreturn, Cpu.pop] at h
  split at h
  case isTrue hc =>
    have hcovers := (Memory.coversWord_iff _ _).mp hc
    rw [hm, hsaved .rsp rfl] at hcovers
    exact hcovers.of_shape (shape_usedStack r c).symm
  case isFalse => cases h

/-! ## Calls of hooks -/

variable {σ : Type} {d : Device byteStream σ} {place : Target → Nat} {s c₁ : Cpu}
  {length k : Nat} {tape before : Tape} {p : Program}

/-- A routine that was called in `e` with a tape of `length` cells has what its hooks need: it was
given their context, and the stack below its frame is free. -/
structure Equipped (r : Routine) (e : Cpu) (length : Nat) : Prop where
  context : e.get .rdx = r.host.context
  frame : (frame e).Apart (spare r.host (e.get .rsp - 48))
  tape : Span.Apart ⟨e.get .rdi, length⟩ (spare r.host (e.get .rsp - 48))

/-- A hook has been called in `c` from a body with `tape` as the tape. Whatever it returns, the body
goes on at offset `k`. -/
structure Resumes (r : Routine) (s : Cpu) (length : Nat) (tape : Tape) (k : Nat) (c : Cpu) :
    Prop where
  body : Within s length tape (c.set .rsp (s.get .rsp))
  returns : ∀ result, ∃ c', r.hookReturn result c = .running c' ∧ c'.ip = r.text.address k ∧
    Within s length tape c' ∧ (c'.get .rax).toUInt32 = result

/-- The context has been kept for the hooks. -/
theorem Equipped.context_eq {e : Cpu} (hq : r.Equipped e length) (he : Entered e s)
    (hw : Within s length tape c) : c.get .r13 = r.host.context := by
  rw [hw.saved .r13 rfl (by decide), he.context, hq.context]

/-- A hook is called from a body, with the address of offset `k` below what the prologue saved. -/
theorem Equipped.resumes_of_call {e : Cpu} (hq : r.Equipped e length) (he : Entered e s)
    (hg : Ground s length) (hw : Within s length tape c) (htop : c₁.get .rsp = s.get .rsp - 8)
    (hregs : ∀ q : Reg, q.isCalleeSaved → q ≠ .rsp → c₁.get q = c.get q)
    (hm : c₁.memory = c.memory.storeWord (s.get .rsp - 8) (r.text.address k)) :
    r.Resumes s length tape k c₁ := by
  have hbody : Within s length tape (c₁.set .rsp (s.get .rsp)) := by
    refine hw.congr ?_ (fun x hx => ?_) (fun x hx => ?_) fun q hq => ?_
    · rw [Cpu.memory_set, hm, Memory.shape_storeWord]
    · rw [Cpu.memory_set, hm, Memory.load_storeWord _ _ (hg.apart_below x hx)]
    · rw [Cpu.memory_set, hm, Memory.load_storeWord _ _ (apart_below s x hx)]
    · rw [Cpu.get_set]
      split
      next h => rw [h, hw.saved .rsp rfl (by decide)]
      next h => rw [hregs q hq h]
  refine ⟨hbody, fun result => ?_⟩
  have hspare : spare r.host (c₁.get .rsp) = spare r.host (e.get .rsp - 48) := by
    rw [htop, he.sub_top]
  have hbelow : c.memory.Covers ⟨s.get .rsp - 8, 8⟩ := hg.stack.of_shape hw.shape
  have hcovers : c₁.memory.Covers ⟨c₁.get .rsp, 8⟩ := by
    rw [htop, hm]
    exact hbelow.of_shape (Memory.shape_storeWord ..)
  have hback : Span.Apart ⟨c₁.get .rsp, 8⟩ (spare r.host (c₁.get .rsp)) := by
    rw [hspare, htop]
    exact hq.frame.mono he.inside_below fun _ hx => hx
  obtain ⟨c₂, hret, hip₂, htop₂, hregs₂, hrax, hm₂⟩ := exists_hookReturn r result hcovers hback
  refine ⟨c₂, hret, ?_, hbody.congr ?_ (fun x hx => ?_) (fun x hx => ?_) fun q hq => ?_, hrax⟩
  · rw [hip₂, htop, hm, Memory.loadWord_storeWord hbelow]
  · rw [hm₂, shape_usedStack, Cpu.memory_set]
  · rw [tapeSpan, he.tape] at hx
    rw [hm₂, load_usedStack r c₁ (hspare ▸ hq.tape x hx), Cpu.memory_set]
  · rw [hm₂, load_usedStack r c₁ (hspare ▸ hq.frame x (he.inside_saved x hx)), Cpu.memory_set]
  · rw [Cpu.get_set]
    split
    next h => rw [h, htop₂, htop, UInt64.sub_add_cancel]
    next h => rw [hregs₂ q hq h]

/-- The condition under which the result of a hook says that it has failed. -/
def failure (isRead : Bool) : Cond := if isRead then .sign else .notEqual

/-- A hook has been called in `c` by a routine that runs `p` from the tape `before`: no hook has
failed before, the transfer is for the instruction whose index the hook was given, a write was given
the current cell, and the routine goes on with a test of the result. -/
structure InHook (r : Routine) (p : Program) (place : Target → Nat) (before : Tape) (f : Frame)
    (c : Cpu) (isRead : Bool) (position : Option Position) (stage : Transfer) : Prop where
  frame : f = ⟨before, f.canPeek, none⟩
  kind : stage.isRead = isRead
  reads : isRead → p.instructions[(c.get .rsi).toUInt32.toNat]? = some ⟨.read, position⟩
  writes : isRead = false →
    ∃ q, p.instructions[(c.get .rdx).toUInt32.toNat]? = some ⟨.write, q⟩
  resumes : ∃ s tape k rest, Entered (r.entered before) s ∧ r.Resumes s before.length tape k c ∧
    r.text.HasAt place k (.instr (.test .dword .rax .rax) ::
      .branch (.jumpIf (failure isRead)) .fail :: rest) ∧
    (isRead = false → (c.get .rsi).toUInt8 = tape.get)

/-- Hooks are called as they should be. -/
def Orderly (r : Routine) (p : Program) (place : Target → Nat) (before : Tape) : State → Prop
  | .calling f c isRead position stage => r.InHook p place before f c isRead position stage
  | _ => True

/-- A machine that does what the routine does wherever hooks are called as they should be. -/
def Mimics (r : Routine) (p : Program) (place : Target → Nat) (before : Tape)
    (step : State → Action byteStream State Ending) : Prop :=
  ∀ s, r.Orderly p place before s → step s = r.step s

theorem Mimics.self (r : Routine) (p : Program) (place : Target → Nat) (before : Tape) :
    r.Mimics p place before r.step := fun _ _ => rfl

/-! ## Results of hooks -/

theorem negative32_toUInt32 (v : UInt8) : negative32 v.toUInt32 = false := by
  have hv := v.toNat_lt
  rw [Bool.eq_false_iff, ne_eq, negative32_iff, UInt8.toNat_toUInt32]
  omega

theorem toUInt8_of_toUInt32 {v : UInt64} {byte : UInt8} (h : v.toUInt32 = byte.toUInt32) :
    v.toUInt8 = byte := by
  have h := congrArg UInt32.toNat h
  rw [UInt64.toNat_toUInt32, UInt8.toNat_toUInt32] at h
  apply UInt8.toNat_inj.mp
  rw [UInt64.toNat_toUInt8]
  have := byte.toNat_lt
  omega

/-! ## The arguments of hooks -/

theorem exists_readArguments (c : Cpu) (index : UInt32) (address : UInt64) :
    ∃ c', c.follow [.mov .qword .rdi .r13, .movImm32 .rsi index, .movImm64 .rax address] =
        .running c' ∧ c'.memory = c.memory ∧ c'.get .rdi = c.get .r13 ∧
      (c'.get .rsi).toUInt32 = index ∧ c'.get .rax = address ∧
      ∀ q : Reg, q.isCalleeSaved → c'.get q = c.get q :=
  ⟨_, rfl, rfl, rfl, UInt32.toUInt32_toUInt64 index, rfl, fun q hq => by
    iterate 3 rw [Cpu.get_set_of_saved _ hq _ rfl, Cpu.get_skip]⟩

/-- A write is given the current cell. -/
theorem exists_writeArguments (hg : Ground s length) (hw : Within s length tape c) (index : UInt32)
    (address : UInt64) :
    ∃ c', c.follow [.mov .qword .rdi .r13, .loadByte .rsi Block.cell, .movImm32 .rdx index,
        .movImm64 .rax address] = .running c' ∧ c'.memory = c.memory ∧
      c'.get .rdi = c.get .r13 ∧ (c'.get .rsi).toUInt8 = tape.get ∧
      (c'.get .rdx).toUInt32 = index ∧ c'.get .rax = address ∧
      ∀ q : Reg, q.isCalleeSaved → c'.get q = c.get q := by
  obtain ⟨c₀, hf₀, hm₀, hrdi₀, hregs₀⟩ : ∃ c₀, c.follow [.mov .qword .rdi .r13] = .running c₀ ∧
      c₀.memory = c.memory ∧ c₀.get .rdi = c.get .r13 ∧
      ∀ q : Reg, q.isCalleeSaved → c₀.get q = c.get q :=
    ⟨_, rfl, rfl, rfl, fun q hq => by
      rw [Cpu.get_set_of_saved _ hq _ rfl, Cpu.get_skip]⟩
  obtain ⟨c₁, hf₁, hm₁, hrsi₁, hregs₁⟩ := follow_loadCell hg (hw.of_regs hm₀ hregs₀) .rsi
  obtain ⟨c', hf', hm', hrdi', hrsi', hrdx', hrax', hregs'⟩ : ∃ c', c₁.follow
      [.movImm32 .rdx index, .movImm64 .rax address] = .running c' ∧ c'.memory = c₁.memory ∧
      c'.get .rdi = c₁.get .rdi ∧ c'.get .rsi = c₁.get .rsi ∧
      c'.get .rdx = index.toUInt64 ∧ c'.get .rax = address ∧
      ∀ q : Reg, q.isCalleeSaved → c'.get q = c₁.get q :=
    ⟨_, rfl, rfl, rfl, rfl, rfl, rfl, fun q hq => by
      iterate 2 rw [Cpu.get_set_of_saved _ hq _ rfl, Cpu.get_skip]⟩
  have hf : c.follow ([.mov .qword .rdi .r13] ++ ([.loadByte .rsi Block.cell] ++
      [.movImm32 .rdx index, .movImm64 .rax address])) = .running c' := by
    simp only [Cpu.follow_append, hf₀, hf₁, hf']
  refine ⟨c', hf, hm'.trans (hm₁.trans hm₀), ?_, ?_, ?_, hrax', fun q hq => ?_⟩
  · rw [hrdi', hregs₁ .rdi (by decide), hrdi₀]
  · rw [hrsi', hrsi₁, UInt8.toUInt8_toUInt64]
  · rw [hrdx', UInt32.toUInt32_toUInt64]
  · rw [hregs' q hq, hregs₁ q (by rintro rfl; cases hq), hregs₀ q hq]

/-! ## The code around a call -/

section Mimics

variable {step : State → Action byteStream State Ending} (hmimics : r.Mimics p place before step)
include hmimics

theorem Mimics.native (f : Frame) (c : Cpu) : step (.native f c) = r.step (.native f c) :=
  hmimics (.native f c) trivial

theorem Mimics.drives (f : Frame) : Drives step r.text (.native f) := by
  intro c c' i n hfetch he
  rw [hmimics.native]
  exact Routine.drives r f hfetch he

/-- A hook is called behind `code`. -/
theorem reaches_hook {e : Cpu} {code : List Instr} (he : Entered e s) (hg : Ground s length)
    (hq : r.Equipped e length) (hw : Within s length tape c)
    (hc : r.text.HasAt place k (Block.plain (code ++ [.callReg .rax])))
    (hs : ∀ i ∈ code, i.IsStraight) (hip : c.ip = r.text.address k)
    (hf : c.follow code = .running c₁) (hm : c₁.memory = c.memory)
    (hregs : ∀ q : Reg, q.isCalleeSaved → c₁.get q = c.get q) (f : Frame) (w : σ) :
    ∃ n c₂, Reaches step d n (.native f c) w (.native f c₂) w ∧ c₂.ip = c₁.get .rax ∧
      (∀ q : Reg, q ≠ .rsp → c₂.get q = c₁.get q) ∧
      r.Resumes s length tape (k + codeSize (code ++ [.callReg .rax])) c₂ := by
  have hsplit : Block.plain (code ++ [.callReg .rax]) =
      Block.plain code ++ [.instr (.callReg .rax)] := List.map_append
  rw [hsplit, Text.hasAt_append, Fragment.sizes_plain] at hc
  obtain ⟨hr₁, hip₁⟩ := exists_follow (d := d) (hmimics.drives f) hc.1 hs hip hf w
  have hrsp : c₁.get .rsp = s.get .rsp := (hregs .rsp rfl).trans (hw.saved .rsp rfl (by decide))
  have hbelow : c.memory.Covers ⟨s.get .rsp - 8, 8⟩ := hg.stack.of_shape hw.shape
  obtain ⟨c₂, hcall, hip₂, hrsp₂, hregs₂, hm₂⟩ := @Cpu.execute_callTo
    (c₁.skip (Instr.callReg .rax).size.toUInt64) (by simpa [hrsp, hm] using hbelow) (c₁.get .rax)
  simp only [Cpu.get_skip, Cpu.memory_skip, Cpu.ip_skip, hrsp, hm, hip₁, Text.address_add]
    at hrsp₂ hregs₂ hm₂
  have hexec : (c₁.skip (Instr.callReg .rax).size.toUInt64).execute (.callReg .rax) =
      .running c₂ := by
    rw [← hcall, Cpu.execute, Cpu.get_skip]
  have hr₂ := reaches_instr (d := d) (hmimics.drives f) hc.2 hip₁ hexec w
  refine ⟨_, c₂, hr₁.trans hr₂, hip₂, hregs₂,
    hq.resumes_of_call he hg hw hrsp₂ (fun q hq hne => ?_) ?_⟩
  · rw [hregs₂ q hne, hregs q hq]
  · rw [hm₂, Nat.add_assoc, codeSize_append]
    rfl

/-- The result of a hook is tested. -/
theorem Resumes.reaches_test (h : r.Resumes s length tape k c) {cond : Cond}
    {rest : List Fragment} (hc : r.text.HasAt place k (.instr (.test .dword .rax .rax) ::
      .branch (.jumpIf cond) .fail :: rest)) (f : Frame) (result : UInt32) (w : σ) :
    ∃ c', Reaches step d 2 (.ofOutcome f (r.hookReturn result c)) w (.native f c') w ∧
      c'.ip = (if (Flags.ofBits32 result).holds cond then r.text.address (place .fail)
        else r.text.address (k + Fragment.sizes
          [.instr (.test .dword .rax .rax), .branch (.jumpIf cond) .fail])) ∧
      Within s length tape c' ∧ (c'.get .rax).toUInt32 = result := by
  obtain ⟨c₁, hret, hip, hw, hrax⟩ := h.returns result
  obtain ⟨c', hreach, hip', hm, hregs⟩ := reaches_verdict (d := d) (hmimics.drives f) hc hip w
  rw [Flags.ofTest, hrax] at hip'
  rw [hret]
  exact ⟨c', hreach, hip', hw.of_regs hm fun q _ => hregs q, by rw [hregs, hrax]⟩

/-! ## Reads and writes -/

variable {canPeek : Bool}

/-- What a routine keeps as long as no hook has failed. -/
def sane (before : Tape) (canPeek : Bool) : Cpu → State := .native ⟨before, canPeek, none⟩

def broken (before : Tape) (canPeek : Bool) (e : RunError) : Cpu → State :=
  .native ⟨before, canPeek, some e⟩

section Transfer

variable (hl : r.Linked) (hq : r.Equipped (r.entered before) before.length)
  (he : Entered (r.entered before) s) (hg : Ground s before.length)
include hl hq he hg

theorem follows_read {index : Nat} {position : Option Position}
    (hpos : r.positions[index.toUInt32.toNat]?.join = position)
    (hhere : p.instructions[index.toUInt32.toNat]? = some ⟨.read, position⟩)
    (hcode : r.text.HasAt place k (Block.read index.toUInt32 r.host.linkage))
    (hip : c.ip = r.text.address k) (hw : Within s before.length tape c) (bound : Nat) (world : σ) :
    Follows step d (AtFail r.text place (broken before canPeek) s before.length) bound
      (At r.text (sane before canPeek) s before.length
        (k + Fragment.sizes (Block.read index.toUInt32 r.host.linkage)))
      (sane before canPeek c) world
      (Transfer.prompt.perform d canPeek bound position tape world) := by
  have hsplit : Block.read index.toUInt32 r.host.linkage =
      Block.plain ([.mov .qword .rdi .r13, .movImm32 .rsi index.toUInt32,
        .movImm64 .rax r.host.readHook] ++ [.callReg .rax]) ++
      ([.instr (.test .dword .rax .rax), .branch (.jumpIf .sign) .fail] ++
        Block.plain [.storeByte Block.cell .rax]) := rfl
  rw [hsplit, Text.hasAt_append, Fragment.sizes_plain] at hcode
  obtain ⟨hcall, hcode⟩ := hcode
  rw [Text.hasAt_append] at hcode
  obtain ⟨htest, hstore⟩ := hcode
  obtain ⟨c₁, hf, hm, hrdi, hrsi, hrax, hregs⟩ :=
    exists_readArguments c index.toUInt32 r.host.readHook
  obtain ⟨n, c₂, hreach, hip₂, hkept, hresumes⟩ := reaches_hook (d := d) hmimics he hg hq hw hcall
    (by simp [Instr.IsStraight]) hip hf hm hregs ⟨before, canPeek, none⟩ world
  have hcontext : c₂.get .rdi = r.host.context := by
    rw [hkept .rdi (by decide), hrdi, hq.context_eq he hw]
  have hindex : (c₂.get .rsi).toUInt32 = index.toUInt32 := by rw [hkept .rsi (by decide), hrsi]
  have hopen := step_read (f := ⟨before, canPeek, none⟩) hl (hip₂.trans hrax) hcontext
  rw [hindex, hpos, ← hmimics.native] at hopen
  have hcalling (t : Transfer) (ht : t.isRead) :
      r.InHook p place before ⟨before, canPeek, none⟩ c₂ true position t := by
    refine ⟨rfl, ht, ?_, ?_, s, tape, _, _, he, hresumes, htest, ?_⟩
    · intro _
      exact hindex ▸ hhere
    · intro hw
      cases hw
    · intro hw
      cases hw
  refine ((Follows.transfer (State.afterTransfer r ⟨before, canPeek, none⟩ c₂ true position)
    (fun t ht => hmimics _ (hcalling t ht)) (fun bound outcome world hfits => ?_) bound rfl
      world).after (hreach.trans (.next hopen))).mono (Nat.le_add_left _ _)
  cases outcome with
  | sent => cases hfits
  | received byte =>
    obtain ⟨c₃, hr₃, hip₃, hw₃, hrax₃⟩ := hresumes.reaches_test (d := d) hmimics htest
      ⟨before, canPeek, none⟩ byte.toUInt32 world
    have hsign : (Flags.ofBits32 byte.toUInt32).holds .sign = false := by
      simp [Flags.holds, Flags.ofBits32, negative32_toUInt32]
    rw [hsign, if_neg Bool.false_ne_true] at hip₃
    obtain ⟨c₄, hf₄, hm₄, hregs₄⟩ := follow_storeCell hg hw₃ .rax
    rw [toUInt8_of_toUInt32 hrax₃] at hm₄
    obtain ⟨m, state, hr₄, hat⟩ := reaches_at (hmimics.drives ⟨before, canPeek, none⟩) hstore
      (by simp [Instr.IsStraight]) hip₃ hf₄ (hw₃.store hg hm₄ fun q _ => hregs₄ q) world
    refine ⟨_, state, hr₃.trans hr₄, ?_⟩
    rw [hsplit, Fragment.sizes_append, Fragment.sizes_append, Fragment.sizes_plain,
      Fragment.sizes_plain, ← Nat.add_assoc, ← Nat.add_assoc]
    exact hat
  | failed e =>
    obtain ⟨c₃, hr₃, hip₃, hw₃, -⟩ := hresumes.reaches_test (d := d) hmimics htest
      ⟨before, canPeek, some e⟩ 0xFFFFFFFF world
    exact ⟨2, _, hr₃, c₃, rfl, hip₃, hw₃⟩

theorem follows_write {index : Nat} {position : Option Position}
    (hhere : p.instructions[index.toUInt32.toNat]? = some ⟨.write, position⟩)
    (hcode : r.text.HasAt place k (Block.write index.toUInt32 r.host.linkage))
    (hip : c.ip = r.text.address k) (hw : Within s before.length tape c) (bound : Nat) (world : σ) :
    Follows step d (AtFail r.text place (broken before canPeek) s before.length) bound
      (At r.text (sane before canPeek) s before.length
        (k + Fragment.sizes (Block.write index.toUInt32 r.host.linkage)))
      (sane before canPeek c) world
      ((Transfer.offer tape.get).perform d canPeek bound position tape world) := by
  have hsplit : Block.write index.toUInt32 r.host.linkage =
      Block.plain ([.mov .qword .rdi .r13, .loadByte .rsi Block.cell,
        .movImm32 .rdx index.toUInt32, .movImm64 .rax r.host.writeHook] ++ [.callReg .rax]) ++
      [.instr (.test .dword .rax .rax), .branch (.jumpIf .notEqual) .fail] := rfl
  rw [hsplit, Text.hasAt_append, Fragment.sizes_plain] at hcode
  obtain ⟨hcall, htest⟩ := hcode
  obtain ⟨c₁, hf, hm, hrdi, hrsi, hrdx, hrax, hregs⟩ :=
    exists_writeArguments hg hw index.toUInt32 r.host.writeHook
  obtain ⟨n, c₂, hreach, hip₂, hkept, hresumes⟩ := reaches_hook (d := d) hmimics he hg hq hw hcall
    (by simp [Instr.IsStraight]) hip hf hm hregs ⟨before, canPeek, none⟩ world
  have hcontext : c₂.get .rdi = r.host.context := by
    rw [hkept .rdi (by decide), hrdi, hq.context_eq he hw]
  have hopen := step_write (f := ⟨before, canPeek, none⟩) hl (hip₂.trans hrax) hcontext
  have hcell : (c₂.get .rsi).toUInt8 = tape.get := by rw [hkept .rsi (by decide), hrsi]
  have hindex : (c₂.get .rdx).toUInt32 = index.toUInt32 := by rw [hkept .rdx (by decide), hrdx]
  rw [hcell, ← hmimics.native] at hopen
  have hcalling (t : Transfer) (ht : t.isRead = false) :
      r.InHook p place before ⟨before, canPeek, none⟩ c₂ false none t := by
    refine ⟨rfl, ht, ?_, ?_, s, tape, _, _, he, hresumes, htest, ?_⟩
    · intro hr
      cases hr
    · intro _
      exact ⟨position, hindex ▸ hhere⟩
    · intro _
      exact hcell
  refine ((Follows.transfer (State.afterTransfer r ⟨before, canPeek, none⟩ c₂ false none)
    (fun t ht => ?_) (fun bound outcome world hfits => ?_) bound rfl world).after
      (hreach.trans (.next hopen))).mono (Nat.le_add_left _ _)
  · simp only [Transfer.resume_position ht canPeek position none]
    exact hmimics _ (hcalling t ht)
  cases outcome with
  | received byte => cases hfits
  | sent =>
    obtain ⟨c₃, hr₃, hip₃, hw₃, -⟩ := hresumes.reaches_test (d := d) hmimics htest
      ⟨before, canPeek, none⟩ 0 world
    refine ⟨2, _, hr₃, c₃, rfl, ?_, hw₃⟩
    rw [hsplit, Fragment.sizes_append, Fragment.sizes_plain, ← Nat.add_assoc]
    exact hip₃
  | failed e =>
    obtain ⟨c₃, hr₃, hip₃, hw₃, -⟩ := hresumes.reaches_test (d := d) hmimics htest
      ⟨before, canPeek, some e⟩ 1 world
    exact ⟨2, _, hr₃, c₃, rfl, hip₃, hw₃⟩

end Transfer

/-- Reads and writes by hooks do what the tree says. -/
theorem transfers (hl : r.Linked) (hq : r.Equipped (r.entered before) before.length)
    (he : Entered (r.entered before) s) (hg : Ground s before.length) (canPeek : Bool)
    (hsize : p.instructions.size ≤ maxInstructions)
    (hpos : r.positions = p.instructions.map (·.position)) (d : Device byteStream σ) :
    Transfers step d r.text place r.host.linkage (sane before canPeek) (broken before canPeek) d
      canPeek p s before.length := by
  rintro c wrap k index position xs hc hp hcode bound tape state world ⟨cpu, rfl, hip, hw⟩
  have hget := hp.getElem?
  have hlt : index < p.instructions.size := (Array.getElem?_eq_some_iff.mp hget).1
  have hindex : index.toUInt32.toNat = index := by
    unfold maxInstructions at hsize
    simp
    omega
  rcases hc with rfl | rfl
  · have hposition : r.positions[index.toUInt32.toNat]?.join = position := by
      rw [hpos, hindex, Array.getElem?_map, hget]
      rfl
    exact follows_read hmimics hl hq he hg hposition (hindex.symm ▸ hget) hcode hip hw bound world
  · exact follows_write hmimics hl hq he hg (hindex.symm ▸ hget) hcode hip hw bound world

end Mimics

end TapeLang.Routine
