import TapeLang.Proofs.Native.Hosted
import TapeLang.Proofs.Native.Steady

/-!
# The contract of a compiled routine

A compiled routine is safe for ever, whatever its hooks do, and so is what it does beside the hooks
that it really has.

* `Routine.guards_prologue`, `Routine.guards_epilogue`: the way into the body and both ways out.
* `Routine.path_of_reaches`: what a routine really does is among what it can do.
* `Routine.safe_compile`: compiled routines are safe.
-/

namespace TapeLang.Routine

open X86 Native Span

variable {r : Routine} {e b c c' : Cpu} {n k : Nat} {place : Target → Nat}

/-! ## Into the body -/

/-- Registers are pushed to the routine's part of the stack. -/
theorem runs_pushes {B : Cpu → Prop} {rs : List Reg}
    (hin : Inside ⟨c.get .rsp - (8 * rs.length).toUInt64, 8 * rs.length⟩ (ownFrame e))
    (hlen : 8 * rs.length < 2 ^ 64)
    (hf : c.follow (rs.map .push) = .running c') (hB : B c') : r.Runs e B (rs.map .push) c := by
  induction rs generalizing c with
  | nil =>
    cases hf
    exact hB
  | cons q rs ih =>
    rw [List.length_cons] at hin hlen
    rw [← Cpu.sub_sub_words] at hin
    rw [List.map_cons, Cpu.follow] at hf
    split at hf
    case h_1 c₁ hexec =>
      have hpush : (c.skip (Instr.push q).size.toUInt64).push _ = .running c₁ := hexec
      obtain ⟨hcovers, -⟩ := Cpu.memory_of_push hpush
      obtain ⟨c₂, hpush₂, -, hrsp, -⟩ := Cpu.execute_push hcovers
      rw [hpush] at hpush₂
      cases hpush₂
      rw [Cpu.get_skip] at hrsp
      refine ⟨⟨fun m hm => (by cases hm), fun s hs => ?_, fun p hp => (by cases hp)⟩, c₁, hexec,
        ih ?_ (by omega) hf⟩
      · cases hs
        exact .inr (.inr fun x hx => hin x
          (inside_of_top (c.get .rsp - 8) (8 * rs.length) (by omega) x hx))
      · rw [hrsp]
        exact fun x hx => hin x (inside_of_le (by omega) x hx)
    case h_2 hne => exact absurd hf (hne c')

section Rules

variable (hl : r.Linked) (hk : r.text.Boundary k) (he : r.Invoked e)
include hl hk he

theorem guards_prologue (hc : r.text.HasAt place k Block.prologue)
    (next : r.Guards e e n (k + Fragment.sizes Block.prologue) (r.Steady e)) :
    r.Guards e e n k (· = e) := by
  have hsplit : Block.prologue = Block.plain ([.rbx, .r12, .r13, .r14, .r15].map .push ++
    [.mov .qword .rbx .rdi, .mov .qword .r14 .rsi, .load .r12 .rsi, .mov .qword .r13 .rdx]) := rfl
  rw [hsplit] at hc
  rw [hsplit, Fragment.sizes_plain] at next
  refine guards_straight hl hk (by simp [Instr.IsStraight]) hc ?_ next
  rintro c rfl
  obtain ⟨c₁, hf, htop, hregs, hshape, hstacked, hload⟩ := follow_saves he.covers_frame
  have hrsi : c₁.get .rsi = c.get .rsi := hregs .rsi (by decide)
  obtain ⟨s, hs, hm, hrbx, hr14, hr12, hr13, hrbp, hrsp⟩ := @follow_arguments c₁
    (by rw [hrsi]; exact he.covers_pointer.of_shape hshape)
  have hpointer : c₁.memory.loadWord (c.get .rsi) = c.memory.loadWord (c.get .rsi) :=
    Memory.loadWord_congr fun x hx => hload x (he.pointer_frame x hx)
  have hpushed : Inside ⟨c.get .rsp - 40, 40⟩ (ownFrame c) :=
    inside_of_sub (c.get .rsp) 48 40 (by omega)
  rw [runs_append]
  refine runs_pushes hpushed (by simp) hf
    (runs_of_follow rfl hs ⟨⟨?_, ?_, ?_, ?_, ?_, fun x hx => ?_, ?_⟩, ?_⟩)
  · rw [hrbx, hregs .rdi (by decide)]
  · rw [hr14, hrsi]
  · rw [hr13, hregs .rdx (by decide)]
  · rw [hrbp, hregs .rbp (by decide)]
  · rw [hrsp, htop]
  · rw [hm, Memory.covers_of_shape hshape]
    exact hx
  · rw [hm]
    exact hstacked
  · rw [hr12, hrsi, hpointer]
    exact he.pointer

/-! ## Out of the body -/

/-- The part that both exits share. -/
theorem guards_leave (hc : r.text.HasAt place k (Block.plain Block.leave)) :
    r.Guards e e n k fun c => r.Steady e c ∧ (c.get .rax = 0 ∨ c.get .rax = 1) := by
  rintro b hp hip ⟨h, hstatus⟩
  obtain ⟨b₁, hexec, h₁, hrax₁, hpointer⟩ :=
    h.execute_writeBack he (Instr.store .r14 .r12).size.toUInt64
  obtain ⟨b₂, hf, hrax₂, hsaved, hm₂, hback⟩ := follow_restore h₁.top h₁.frameBase h₁.stacked
    fun x hx => h₁.covers x (he.covers_frame x (inside_saved e x hx))
  have hword : b₂.memory.Covers ⟨b₂.get .rsp, 8⟩ := by
    rw [hsaved .rsp rfl, hm₂]
    exact fun x hx => h₁.covers x (he.covers_frame x (inside_back e x hx))
  obtain ⟨b₃, hret, hip₃, htop₃, hregs₃, hm₃⟩ := @Cpu.execute_ret
    (b₂.skip Instr.ret.size.toUInt64) (by simpa using hword)
  simp only [Cpu.get_skip, Cpu.memory_skip, hsaved .rsp rfl, hm₂, hback, he.back]
    at hip₃ htop₃ hregs₃ hm₃
  have hcode : r.text.HasAt place (k + (Instr.store .r14 .r12).size) (Block.plain
      [.pop .r15, .pop .r14, .pop .r13, .pop .r12, .pop .rbx] ++ [.instr .ret]) := hc.2
  rw [Text.hasAt_append, Fragment.sizes_plain] at hcode
  have hk₁ := hk.next hc.1
  have hk₂ := hk₁.behind hcode.1
  rw [Fragment.sizes_plain] at hk₂
  refine secure_instr hl hk hip hc.1 (h.confined_writeBack) hexec fun m _ hmove => ?_
  -- from here on the pointer has been written back, which is why the way is counted from `b`
  suffices hguards : r.Guards e b m (k + (Instr.store .r14 .r12).size) (· = b₁) from
    hguards b₁ (.single hmove)
      (by rw [Cpu.ip_execute rfl hexec, Cpu.ip_skip, hip, Text.address_add]) rfl
  refine guards_straight (B := (· = b₂)) hl hk₁ (by simp [Instr.IsStraight]) hcode.1
    (fun c hc => hc ▸ runs_of_follow rfl hf rfl) ?_
  rintro c hpc hipc rfl
  refine secure_instr hl hk₂ hipc hcode.2.1 (.of_isQuiet rfl) hret fun m' _ hmove' => ?_
  refine secure_back hl hip₃ ⟨fun q hq hne => ?_, htop₃, ?_, b, _, hp, hpc.tail hmove',
    hip ▸ hc.1, ?_, h.pointer⟩
  · rw [hregs₃ q hne, hsaved q hq]
  · rw [hregs₃ .rax (by decide), hrax₂, hrax₁]
    exact hstatus
  · rw [hm₃, hpointer]

/-- Both exits are safe: the one behind the body, and the one after a failure. -/
theorem guards_epilogue (hc : r.text.HasAt place k Block.epilogue) :
    r.Guards e e n k (r.Steady e) ∧ r.Guards e e n (place .fail) (r.Steady e) := by
  obtain ⟨shared, failed, hs, hf, hfirst, hleave, hfail, hstatus, hjump⟩ := parts_of_epilogue hc
  have hk₁ := hk.behind hfirst
  rw [Fragment.sizes_plain, ← hs] at hk₁
  have hshared := guards_leave (n := n) hl hk₁ he hleave
  constructor
  · rw [hs] at hshared
    refine guards_straight hl hk (by simp [Instr.IsStraight]) hfirst (fun c h => ?_) hshared
    refine runs_of_follow rfl rfl ⟨h.of_regs (fun q hq => ?_) (by simp), ?_⟩
    · simp only [Cpu.get_setFlags]
      rw [Cpu.get_set_of_saved _ hq _ rfl, Cpu.get_skip]
    · simp [Cpu.get_set]
  · have hk₂ := hk₁.behind hleave
    rw [Fragment.sizes_plain, ← hf] at hk₂
    have hk₃ := hk₂.behind hstatus
    rw [Fragment.sizes_plain] at hk₃
    have hback := guards_jumpBack hl hk₃ (by decide)
      (by rw [hf, codeSize_append, ← Nat.add_assoc]) hjump
      (fun c a h => ⟨h.1.of_regs (by simp) (by simp), by simpa using h.2⟩) hshared.below
    rw [hfail]
    refine guards_straight hl hk₂ (by simp [Instr.IsStraight]) hstatus (fun c h => ?_) hback
    exact runs_of_follow rfl rfl ⟨h.set rfl _ _, by simp [Cpu.get_set]⟩

end Rules

/-! ## Whole routines -/

/-- A routine that has been called is secure for any number of moves. -/
theorem secure_invoked (hl : r.Linked) (he : r.Invoked e) {t : Tree} {wrap : Wrap}
    (hred : t.Reduced r.tapeLength) (hwrap : Wrap.ofTapeLength r.tapeLength = .ok wrap)
    (hc : r.text.HasAt place 0 (t.routine r.host.linkage wrap))
    (hstart : r.text.address 0 = r.host.text) (n : Nat) : r.Secure e n e := by
  rw [Tree.routine, Text.hasAt_append, Text.hasAt_append] at hc
  obtain ⟨hpro, hbody, hepi⟩ := hc
  have hk₁ := Text.Boundary.start.behind hpro
  have hk₂ := hk₁.behind hbody
  have htree (n : Nat) : r.Guards e e n (0 + Fragment.sizes Block.prologue) (r.Steady e) ∧
      ∀ l ∈ Fragment.marks (t.fragments r.host.linkage wrap 0 0),
        r.Guards e e n (place l) (r.Steady e) := by
    induction n using Nat.strongRecOn with
    | ind n ih =>
      obtain ⟨hend, hfail⟩ := guards_epilogue (n := n) hl hk₂ he hepi
      exact guards_tree hl hk₁ he hwrap t hred hbody hfail.below (fun l h m hm => (ih m hm).2 l h)
        hend
  exact guards_prologue hl .start he hpro (htree n).1 e .refl (he.ip.trans hstart.symm) rfl

/-! ## Real hooks -/

/-- A hook that was called as it should be uses no more of the stack than it may. -/
theorem hookReturns_of_hookReturn {result : UInt32} {length : Nat} (hq : r.Equipped e length)
    (hc : HookCalled e c) (h : r.hookReturn result c = .running c') : HookReturns e c c' := by
  have hspare : spare r.host (c.get .rsp) = spare r.host (e.get .rsp - 48) := by rw [hc.top]
  have hback : Apart ⟨c.get .rsp, 8⟩ (spare r.host (c.get .rsp)) := by
    rw [hspare, hc.top]
    exact hq.frame.mono (inside_of_le (by omega)) fun _ hx => hx
  obtain ⟨c₁, hreturn, hip, htop, hregs, -, hm⟩ :=
    exists_hookReturn r result (covers_of_hookReturn h) hback
  rw [h] at hreturn
  cases hreturn
  refine ⟨hip, htop, hregs, fun x hx => ?_, fun x hx => ?_⟩
  · rw [hm, Memory.covers_of_shape (shape_usedStack r c)]
    exact hx
  · rw [hm, load_usedStack r c (hspare ▸ hq.frame x (savedFrame_inside e x hx))]

/-- A state of a run whose processor is in a state that the routine can get to. -/
def Possible (r : Routine) (tape : Tape) : State → Prop
  | .opening t => t = tape
  | .native _ c => r.Path (r.entered tape) (r.entered tape) c
  | .calling _ c _ _ _ => r.Path (r.entered tape) (r.entered tape) c ∧ r.AtHook c
  | .closed _ => True

theorem possible_ofOutcome {tape : Tape} {f : Frame} {o : Cpu.Outcome}
    (h : ∀ c', o = .running c' → r.Path (r.entered tape) (r.entered tape) c') :
    r.Possible tape (.ofOutcome f o) := by
  cases o with
  | running c' => exact h c' rfl
  | systemCall c' => trivial
  | crashed reason => trivial

theorem eq_of_hooked {f : Frame} {isRead : Bool} {position : Option Position} {stage : Transfer}
    {s' : State} (h : r.hooked f c isRead position stage = .next s') :
    s' = .calling f c isRead position stage := by
  unfold hooked at h
  split at h
  · cases h
    rfl
  · cases h

theorem hooked_ne_ask {f : Frame} {isRead : Bool} {position : Option Position} {stage : Transfer}
    {request : byteStream.Request} {resume : byteStream.Reply request → State} :
    r.hooked f c isRead position stage ≠ .ask request resume := by
  unfold hooked
  split <;> nofun

theorem possible_next {tape : Tape} {s s' : State} (h : r.Possible tape s)
    (hs : r.step s = .next s') : r.Possible tape s' := by
  cases s with
  | opening t =>
    rw [step] at hs
    split at hs <;> cases hs
  | calling f c isRead position stage => cases hs
  | closed ending => cases hs
  | native f c =>
    cases hf : r.text.fetch? c.ip with
    | some i =>
      simp only [step, Cpu.fetch?, hf] at hs
      cases hs
      exact possible_ofOutcome fun c' he => h.tail (.instr hf he)
    | none =>
      rw [step_outside hf, outside] at hs
      split at hs
      · unfold returned at hs
        dsimp only at hs
        split at hs <;> cases hs
      · split at hs
        case isTrue hip =>
          obtain rfl := eq_of_hooked hs
          exact ⟨h, .inl hip⟩
        case isFalse =>
          split at hs
          case isTrue hip =>
            obtain rfl := eq_of_hooked hs
            exact ⟨h, .inr hip⟩
          case isFalse => cases hs

section Safe

variable {tape : Tape} (hq : r.Equipped (r.entered tape) tape.length)
  (hsafe : ∀ c, r.Path (r.entered tape) (r.entered tape) c → r.Safe (r.entered tape) c)
include hq hsafe

theorem possible_ask {s : State} {request : byteStream.Request}
    {resume : byteStream.Reply request → State} (reply : byteStream.Reply request)
    (h : r.Possible tape s) (hs : r.step s = .ask request resume) :
    r.Possible tape (resume reply) := by
  cases s with
  | opening t =>
    obtain rfl : t = tape := h
    rw [step] at hs
    split at hs
    · cases hs
    · cases hs
      exact .refl
  | closed ending => cases hs
  | native f c =>
    cases hf : r.text.fetch? c.ip with
    | some i =>
      simp only [step, Cpu.fetch?, hf] at hs
      cases hs
    | none =>
      rw [step_outside hf, outside] at hs
      split at hs
      · unfold returned at hs
        dsimp only at hs
        split at hs
        · cases hs
          cases reply <;> trivial
        · cases hs
      · split at hs
        · exact absurd hs hooked_ne_ask
        · split at hs
          · exact absurd hs hooked_ne_ask
          · cases hs
  | calling f c isRead position stage =>
    rw [step] at hs
    cases hs
    obtain ⟨hpath, hhook⟩ := h
    have hreturn (f : Frame) (result : UInt32) :
        r.Possible tape (.ofOutcome f (r.hookReturn result c)) :=
      possible_ofOutcome fun c' he => hpath.tail
        (.hook hhook (hookReturns_of_hookReturn hq ((hsafe c hpath).hook hhook) he))
    have hafter (next : Transfer.Next) :
        r.Possible tape (.afterTransfer r f c isRead position next) := by
      cases next with
      | stage t => exact ⟨hpath, hhook⟩
      | done outcome => cases outcome <;> exact hreturn _ _
    exact hafter _

/-- What a safe routine really does is among what it can do. -/
theorem path_of_reaches {σ : Type} {d : Device byteStream σ} {f : Frame} {w w' : σ}
    (h : Reaches r.step d n (start tape) w (.native f c) w') :
    r.Path (r.entered tape) (r.entered tape) c :=
  Reaches.keeps (P := r.Possible tape) (fun _ _ hs h => possible_next hs h)
    (fun _ _ _ reply hs h => possible_ask hq hsafe reply hs h) h rfl

end Safe

/-- A host that keeps its stack aligned calls a routine as it should be called. -/
theorem invoked_entered {tape : Tape} {codeSize : Nat} (hf : r.host.Fits tape.length codeSize)
    (hl : tape.length ≤ maxTapeLength) (ht : tape.length = r.tapeLength)
    (ha : (r.host.stack + r.host.stackSize.toUInt64).toNat % 16 = 0) :
    r.Invoked (r.entered tape) := by
  obtain ⟨h, hback⟩ := called_entered hf hl
  have htop : (r.entered tape).get .rsp + 8 = r.host.stack + r.host.stackSize.toUInt64 :=
    UInt64.sub_add_cancel ..
  have hpointer : tape.pointer.toUInt64.toNat = tape.pointer := by
    have := tape.pointer_lt
    have : tape.cells.size = tape.length := rfl
    unfold maxTapeLength at hl
    simp
    omega
  refine ⟨rfl, hback, htop ▸ ha, ?_, ht ▸ h.covers_tape, h.covers_pointer, h.covers_frame,
    ht ▸ h.tape_frame, h.pointer_frame⟩
  rw [h.pointer, hpointer, ← ht]
  exact tape.pointer_lt

/-! ## Compiled routines -/

/-- A compiled routine is safe for ever, whatever its hooks do; and so is what it does beside the
hooks of its host. -/
theorem safe_compile {source : String} {config : Config} {p : Program} {host : Host}
    (h : parse source config = .ok p) (hr : compile p host = .ok r)
    (hf : host.Fits p.tapeLength r.size) :
    r.tapeLength = p.tapeLength ∧
      (∀ e, r.Invoked e → ∀ c, r.Path e e c → r.Safe e c) ∧
      ((host.stack + host.stackSize.toUInt64).toNat % 16 = 0 →
        ∀ (σ : Type) (d : Device byteStream σ) (tape : Tape) (n : Nat) (f : Frame) (c : Cpu)
          (world world' : σ), tape.length = p.tapeLength →
          Reaches r.step d n (start tape) world (.native f c) world' →
          r.Safe (r.entered tape) c) := by
  obtain ⟨t, ht, hsimple⟩ := exists_tree h
  have hred : t.Reduced p.tapeLength := tapeLength_of_parse h ▸ hsimple.reduced
  obtain ⟨-, wrap, place, hwrap, hat⟩ := layout_of_compile ht hr
  obtain ⟨hhost, hlength, -, hstart, htext⟩ := fields_of_compile hr
  rw [← hlength] at hred hwrap
  rw [← hhost] at hat hf
  have hl : r.Linked := hf.linked htext
  have hsafe (e : Cpu) (he : r.Invoked e) (c : Cpu) (hp : r.Path e e c) : r.Safe e c :=
    safe_of_secure (secure_invoked hl he hred hwrap hat hstart) hp
  refine ⟨hlength, hsafe, fun ha σ d tape n f c world world' htape hreach => ?_⟩
  rw [← hhost] at ha
  rw [← htape] at hf
  have htape : tape.length = r.tapeLength := htape.trans hlength.symm
  have hle : tape.length ≤ maxTapeLength := by
    rw [htape]
    exact Wrap.le_of_ofTapeLength hwrap
  have hinvoked : r.Invoked (r.entered tape) := invoked_entered hf hle htape ha
  exact hsafe _ hinvoked c (path_of_reaches (equipped_entered hf) (hsafe _ hinvoked) hreach)

/-- The routine of a program that reads, loops and writes, beside the hooks of the standard host. -/
theorem safe_compile_echo :
    ∃ (p : Program) (r : Routine) (tape : Tape), parse ",[.,]" .standard = .ok p ∧
      compile p .standard = .ok r ∧ Host.standard.Fits p.tapeLength r.size ∧
      r.tapeLength = 30000 ∧
      (∀ c, r.Path (r.entered tape) (r.entered tape) c → r.Safe (r.entered tape) c) ∧
      ∀ n f c world, Reaches r.step (Cursor.source.beside collecting) n (start tape)
        (.ofBytes #[1, 0], #[]) (.native f c) world → r.Safe (r.entered tape) c := by
  obtain ⟨p, hp, hs⟩ : ∃ p, parse ",[.,]" .standard = .ok p ∧
      p.codeSize Host.standard.linkage < 2 ^ 31 := ⟨_, rfl, by decide +kernel⟩
  have hlength : p.tapeLength = 30000 := tapeLength_of_parse hp
  have hl : p.tapeLength ≤ maxTapeLength := by rw [hlength]; decide
  obtain ⟨t, ht, hsimple⟩ := exists_tree hp
  obtain ⟨wrap, hwrap⟩ := Wrap.exists_ofTapeLength hl
  obtain ⟨r, -, hr, hhost, -⟩ := exists_compile ht (tapeLength_of_parse hp ▸ hsimple.reduced) hwrap
    hs (Host.fits_standard hl hs)
  have hfits : Host.standard.Fits p.tapeLength r.size :=
    Host.fits_standard hl ((layout_of_compile ht hr).1 ▸ hs)
  obtain ⟨htapeLength, hsafe, hruns⟩ := safe_compile hp hr hfits
  have haligned : (Host.standard.stack + Host.standard.stackSize.toUInt64).toNat % 16 = 0 := by
    decide
  have hinvoked : r.Invoked (r.entered (.blank 30000 (by decide))) := by
    rw [← hhost, hlength] at hfits
    rw [← hhost] at haligned
    exact invoked_entered hfits (by decide) (htapeLength.trans hlength).symm haligned
  exact ⟨p, r, .blank 30000 (by decide), hp, hr, hfits, htapeLength.trans hlength,
    hsafe _ hinvoked, fun n f c world => hruns haligned _ _ _ n f c _ world hlength.symm⟩

end TapeLang.Routine
