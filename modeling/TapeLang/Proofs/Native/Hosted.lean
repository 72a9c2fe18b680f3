import TapeLang.Execution
import TapeLang.Proofs.Native.Hook
import TapeLang.Proofs.Tree.Meaning

/-!
# Compiled routines and the interpreter

A program that is compiled for another process does there what the interpreter does, wherever that
process keeps its memory and its hooks, as long as nothing is in the way of anything else, whatever
is in its registers and on its stack, and whatever the hooks leave where they need not keep anything.

* `Host.Fits`: nothing is in the way.
* `Routine.tracks`: a routine gets wherever the tree of its program gets.
* `Routine.agrees_compile`: a compiled routine agrees with the interpreter, and returns a status
  other than 0 just if a hook has kept an error.
-/

namespace TapeLang

open X86 Native Course

/-- There is room for tapes of `tapeLength` cells and routines of `codeSize` bytes. -/
structure Host.Fits (h : Host) (tapeLength codeSize : Nat) : Prop where
  stackSize_ge : 56 ≤ h.stackSize
  stackSize_lt : h.stackSize < 2 ^ 64
  tape_pointer : Span.Apart ⟨h.tape, tapeLength⟩ ⟨h.pointer, 8⟩
  tape_stack : Span.Apart ⟨h.tape, tapeLength⟩ ⟨h.stack, h.stackSize⟩
  pointer_stack : Span.Apart ⟨h.pointer, 8⟩ ⟨h.stack, h.stackSize⟩
  text_readHook : ¬ Span.Has ⟨h.text, codeSize⟩ h.readHook
  text_writeHook : ¬ Span.Has ⟨h.text, codeSize⟩ h.writeHook
  text_back : ¬ Span.Has ⟨h.text, codeSize⟩ h.back
  readHook_ne_back : h.readHook ≠ h.back
  writeHook_ne_back : h.writeHook ≠ h.back
  writeHook_ne_readHook : h.writeHook ≠ h.readHook

/-- The standard host has room for all tapes and routines that there can be. -/
theorem Host.fits_standard {tapeLength codeSize : Nat} (ht : tapeLength ≤ maxTapeLength)
    (hc : codeSize < 2 ^ 31) : Host.standard.Fits tapeLength codeSize := by
  unfold maxTapeLength at ht
  have hspan {a b : UInt64} {n m : Nat} (hn : n ≤ (b - a).toNat) (hm : m ≤ (a - b).toNat) :
      Span.Apart ⟨a, n⟩ ⟨b, m⟩ := Span.apart_of_le hn hm
  have houtside {a : UInt64} (ha : 2 ^ 31 ≤ (a - Host.standard.text).toNat) :
      ¬ Span.Has ⟨Host.standard.text, codeSize⟩ a := by
    intro h
    have : (a - Host.standard.text).toNat < codeSize := h
    omega
  exact ⟨by decide, by decide, hspan (Nat.le_trans ht (by decide)) (by decide),
    hspan (Nat.le_trans ht (by decide)) (by decide), hspan (by decide) (by decide),
    houtside (by decide), houtside (by decide), houtside (by decide), by decide, by decide,
    by decide⟩

/-- Nothing of what a host has elsewhere is in the code. -/
theorem Host.Fits.linked {r : Routine} {tapeLength : Nat} (h : r.host.Fits tapeLength r.size)
    (ht : r.text = .ofBytes r.host.text r.text.bytes) : r.Linked := by
  have houtside {a : UInt64} (ha : ¬ Span.Has ⟨r.host.text, r.size⟩ a) :
      r.text.fetch? a = none := by
    rw [ht]
    exact Text.fetch?_outside (Nat.le_of_not_lt ha)
  exact ⟨houtside h.text_readHook, houtside h.text_writeHook, houtside h.text_back,
    h.readHook_ne_back, h.writeHook_ne_back, h.writeHook_ne_readHook⟩

namespace Routine

variable {r : Routine} {tape : Tape}

/-! ## Into the routine -/

/-- How much of the stack is below what the routine may change. -/
theorem toNat_frame {codeSize : Nat} (hf : r.host.Fits tape.length codeSize) :
    ((r.entered tape).get .rsp - 48 - r.host.stack).toNat = r.host.stackSize - 56 := by
  have hge := hf.stackSize_ge
  have hlt := hf.stackSize_lt
  have hrsp : (r.entered tape).get .rsp = r.host.stack + r.host.stackSize.toUInt64 - 8 := rfl
  rw [hrsp]
  simp only [UInt64.toNat_sub, UInt64.toNat_add, UInt64.toNat_ofNat', Nat.toUInt64,
    UInt64.reduceToNat]
  have := r.host.stack.toNat_lt
  omega

/-- What the routine may change of the stack is at its top. -/
theorem inside_frame {codeSize : Nat} (hf : r.host.Fits tape.length codeSize) :
    (frame (r.entered tape)).Inside ⟨r.host.stack, r.host.stackSize⟩ := by
  have hge := hf.stackSize_ge
  exact Span.inside_of_offset _ (toNat_frame hf) (by omega)

/-- The hooks get their context, and have the rest of the stack. -/
theorem equipped_entered {codeSize : Nat} (hf : r.host.Fits tape.length codeSize) :
    r.Equipped (r.entered tape) tape.length := by
  have hge := hf.stackSize_ge
  have hlt := hf.stackSize_lt
  have hroom := toNat_frame hf
  refine ⟨rfl, Span.apart_of_top (by omega), ?_⟩
  refine hf.tape_stack.mono (fun _ hx => hx) (Span.inside_of_le ?_)
  omega

theorem called_entered {codeSize : Nat} (hf : r.host.Fits tape.length codeSize)
    (hl : tape.length ≤ maxTapeLength) :
    Called (r.entered tape) tape ∧
      (r.entered tape).memory.loadWord ((r.entered tape).get .rsp) = r.host.back := by
  have hframe := inside_frame hf
  obtain ⟨h, hh⟩ : ∃ h, r.host = h := ⟨_, rfl⟩
  rw [hh] at hf hframe
  obtain ⟨top, htop⟩ : ∃ top, h.stack + h.stackSize.toUInt64 = top := ⟨_, rfl⟩
  obtain ⟨m, hm⟩ : ∃ m : Memory,
    ⟨[⟨h.tape, tape.cells⟩, ⟨h.pointer, .blank 8⟩, ⟨h.stack, h.stackBytes⟩]⟩ = m := ⟨_, rfl⟩
  have hrdi : (r.entered tape).get .rdi = h.tape := by rw [← hh]; rfl
  have hrsi : (r.entered tape).get .rsi = h.pointer := by rw [← hh]; rfl
  have hrsp : (r.entered tape).get .rsp = top - 8 := by rw [← htop, ← hh]; rfl
  have hmem : (r.entered tape).memory =
      (m.storeWord h.pointer tape.pointer.toUInt64).storeWord (top - 8) h.back := by
    rw [← hm, ← htop, ← hh]
    rfl
  have hcells : m.Carries h.tape tape.cells := by
    subst hm
    exact .head ⟨h.tape, tape.cells⟩ _
  have htape : m.Covers ⟨h.tape, tape.length⟩ := by
    subst hm
    exact Memory.covers_region (List.mem_cons_self ..)
  have hpointer : m.Covers ⟨h.pointer, 8⟩ := by
    subst hm
    exact @Memory.covers_region _ ⟨h.pointer, .blank 8⟩ (by simp)
  have hstack : m.Covers ⟨h.stack, h.stackSize⟩ := by
    subst hm
    exact @Memory.covers_region _ ⟨h.stack, h.stackBytes⟩ (by simp)
  refine called_of_stores (m := m) hl ?_ ?_ ?_ ?_ ?_ ?_ ?_ ?_
  · rwa [hrdi]
  · rwa [hrdi]
  · rwa [hrsi]
  · exact hstack.mono hframe
  · rw [hrdi, hrsi]
    exact hf.tape_pointer
  · rw [hrdi]
    exact hf.tape_stack.mono (fun _ hx => hx) hframe
  · rw [hrsi]
    exact hf.pointer_stack.mono (fun _ hx => hx) hframe
  · rw [hrsi, hrsp, hmem, hh]

/-! ## Back at the caller -/

/-- The tape is where it was put. -/
theorem exists_region {c : Cpu} {rest : List (UInt64 × Nat)}
    (hs : c.memory.shape = (r.host.tape, tape.length) :: rest) (hl : tape.length ≤ maxTapeLength)
    (hc : c.memory.Carries r.host.tape tape.cells) :
    ∃ region, c.memory.regions.find? (·.base == r.host.tape) = some region ∧
      region.bytes = tape.cells := by
  unfold maxTapeLength at hl
  obtain ⟨regions, hregions⟩ : ∃ regions, c.memory.regions = regions := ⟨_, rfl⟩
  rw [Memory.shape, hregions] at hs
  cases regions with
  | nil => cases hs
  | cons region others =>
    rw [List.map_cons, List.cons.injEq, Prod.mk.injEq] at hs
    obtain ⟨⟨hbase, hsize⟩, -⟩ := hs
    have hhead : c.memory.Carries r.host.tape region.bytes := by
      rw [← hbase, show c.memory = ⟨region :: others⟩ from congrArg Memory.mk hregions]
      exact .head region others
    refine ⟨region, ?_, hhead.unique hc hsize (by rw [hsize]; omega)⟩
    rw [hregions, List.find?_cons_of_pos (by simp [hbase])]

theorem toNat_pointer (hl : tape.length ≤ maxTapeLength) :
    tape.pointer.toUInt64.toNat = tape.pointer := by
  unfold maxTapeLength at hl
  have := tape.pointer_lt
  have : tape.cells.size = tape.length := rfl
  simp
  omega

theorem recover_eq {c : Cpu} {rest : List (UInt64 × Nat)}
    (hs : c.memory.shape = (r.host.tape, tape.length) :: rest) (hl : tape.length ≤ maxTapeLength)
    (hc : c.memory.Carries r.host.tape tape.cells)
    (hp : c.memory.loadWord r.host.pointer = tape.pointer.toUInt64) (before : Tape) :
    r.recover c before = tape := by
  obtain ⟨region, hfind, hcells⟩ := exists_region hs hl hc
  rw [recover, hfind]
  simp only [hp, toNat_pointer hl, hcells, tape.pointer_lt, dif_pos]

theorem shape_entered (r : Routine) (tape : Tape) :
    ∃ rest, (r.entered tape).memory.shape = (r.host.tape, tape.length) :: rest := by
  refine ⟨[(r.host.pointer, 8), (r.host.stack, r.host.stackSize)], ?_⟩
  rw [entered]
  simp only [Memory.shape_storeWord]
  rfl

theorem recover_returned {c : Cpu} {tape' : Tape} {status : UInt64}
    (h : Returned (r.entered tape) tape.length tape' status c) (hl : tape.length ≤ maxTapeLength)
    (before : Tape) : r.recover c before = tape' := by
  obtain ⟨rest, hshape⟩ := shape_entered r tape
  rw [← h.length_eq, ← h.shape] at hshape
  exact recover_eq hshape (h.length_eq ▸ hl) h.carries h.pointer before

/-- The text and the host are right for a routine of `p`, which is the list of `t`. -/
structure Holds (r : Routine) (p : Program) (t : Tree) (wrap : Wrap) (place : Target → Nat) :
    Prop where
  linked : r.Linked
  fits : r.host.Fits p.tapeLength (p.codeSize r.host.linkage)
  tapeLength : r.tapeLength = p.tapeLength
  positions : r.positions = p.instructions.map (·.position)
  code : r.text.HasAt place 0 (t.routine r.host.linkage wrap)
  start : r.text.address 0 = r.host.text
  flatten : t.flatten = p.instructions.toList
  reduced : t.Reduced p.tapeLength
  wrap : Wrap.ofTapeLength p.tapeLength = .ok wrap
  count : p.instructions.size ≤ maxInstructions

section Runs

variable {σ : Type} {p : Program} {t : Tree} {wrap : Wrap} {place : Target → Nat}
  {d : Device byteStream σ} (h : r.Holds p t wrap place) (hl : tape.length = p.tapeLength)
include h hl

theorem Holds.length_le : tape.length ≤ maxTapeLength :=
  hl ▸ Wrap.le_of_ofTapeLength h.wrap

section Mimics

variable {step : State → Action byteStream State Ending} (hmimics : r.Mimics p place tape step)
include hmimics

/-- The routine runs the tree and gets back to its caller. -/
theorem follows_opened (d : Device byteStream σ) (canPeek : Bool) (bound : Nat) (world : σ) :
    Follows step d (fun e => Back (broken tape canPeek e) (r.entered tape) tape.length 1) bound
      (Back (sane tape canPeek) (r.entered tape) tape.length 0) (r.opened tape canPeek) world
      (t.exec d canPeek bound tape world) := by
  obtain ⟨hcalled, -⟩ := called_entered (r := r) (hl ▸ h.fits) (h.length_le hl)
  have hsane : Drives step r.text (sane tape canPeek) := hmimics.drives _
  have hbroken (e : RunError) : Drives step r.text (broken tape canPeek e) := hmimics.drives _
  exact follows_called hsane hbroken h.flatten (hl ▸ h.reduced) (hl ▸ h.wrap) h.code
    (fun s he hg => transfers hmimics h.linked (equipped_entered (hl ▸ h.fits)) he hg canPeek h.count
      h.positions d) hcalled
    h.start.symm bound world

end Mimics

theorem step_returned {f : Frame} {c : Cpu} {tape' : Tape} {status : UInt64}
    (hret : Returned (r.entered tape) tape.length tape' status c) :
    r.step (.native f c) = if status.toUInt32 = 0 then .ask .flush (finished tape')
      else .halt ⟨.failed (f.error.getD unreported), tape'⟩ := by
  obtain ⟨-, hback⟩ := called_entered (r := r) (hl ▸ h.fits) (h.length_le hl)
  rw [step_back h.linked (hret.ip.trans hback), returned, hret.status,
    recover_returned hret (h.length_le hl)]

/-- A machine that mimics a routine gets wherever the tree of the program gets. -/
theorem Mimics.tracks {step : State → Action byteStream State Ending}
    (hmimics : r.Mimics p place tape step) (d : Device byteStream σ) (world : σ) :
    (course step d (start tape) world).Tracks (t.course d tape world) := by
  have hopen : step (start tape) = .ask .canPeek (r.opened tape) := by
    rw [hmimics (start tape) trivial, start, Routine.step,
      if_neg (not_not_intro (hl.trans h.tapeLength.symm))]
  refine tracks_of_follows
    (fun canPeek e => Back (broken tape canPeek e) (r.entered tape) tape.length 1)
    (fun canPeek => Back (sane tape canPeek) (r.entered tape) tape.length 0) hopen
    (fun canPeek bound world => follows_opened h hl hmimics d canPeek bound world) ?_ ?_ world
  · rintro canPeek tape' _ world ⟨c, rfl, hret⟩
    have hstep := step_returned h hl (f := ⟨tape, canPeek, none⟩) hret
    rw [← hmimics.native] at hstep
    refine (Reaches.ask hstep).ends (ends_of_reaches (.refl _ _) ?_)
    cases hr : (d .flush world).1 <;> exact hmimics (.closed _) trivial
  · rintro canPeek e tape' _ world ⟨c, rfl, hret⟩
    have hstep := step_returned h hl (f := ⟨tape, canPeek, some e⟩) hret
    rw [← hmimics.native] at hstep
    exact ends_of_reaches (.refl _ world) hstep

/-- A routine gets wherever the tree of its program gets. -/
theorem tracks (d : Device byteStream σ) (world : σ) :
    (course r.step d (start tape) world).Tracks (t.course d tape world) :=
  Mimics.tracks h hl (.self r p place tape) d world

end Runs

/-! ## The status -/

variable {σ : Type} {d : Device byteStream σ}

theorem eq_zero_of_closed {ending : Ending} {n : Nat} {w w' : σ} {s' : State}
    (h : Reaches r.step d n (.closed ending) w s' w') : n = 0 ∧ s' = .closed ending := by
  cases n with
  | zero =>
    cases h
    exact ⟨rfl, rfl⟩
  | succ n =>
    have hrun := run_halt (d := d) (show r.step (.closed ending) = .halt ending from rfl) n w
    rw [Reaches, hrun] at h
    cases h

/-- Back at its caller a routine has at most one request left. -/
theorem le_one_of_back {f : Frame} {c : Cpu} {s' : State} {w w' : σ} {n : Nat} (hr : r.Linked)
    (hip : c.ip = r.host.back) (h : Reaches r.step d n (.native f c) w s' w') :
    n = 0 ∨ n = 1 ∧ ∃ ending, s' = .closed ending := by
  cases n with
  | zero => exact .inl rfl
  | succ n =>
    have hstep := step_back (f := f) hr hip
    unfold returned at hstep
    by_cases hz : (c.get .rax).toUInt32 = 0
    · simp only [if_pos hz] at hstep
      rw [Reaches, run_ask hstep] at h
      obtain ⟨ending, he⟩ : ∃ ending, finished (r.recover c f.tape) (d .flush w).1 =
          .closed ending := by
        cases (d .flush w).1 <;> exact ⟨_, rfl⟩
      rw [he] at h
      obtain ⟨rfl, rfl⟩ := eq_zero_of_closed h
      exact .inr ⟨rfl, ending, rfl⟩
    · simp only [if_neg hz] at hstep
      rw [Reaches, run_halt hstep] at h
      cases h

/-- A routine is back at its caller only once. -/
theorem eq_zero_of_back {f f' : Frame} {c c' : Cpu} {w w' : σ} {n : Nat} (hr : r.Linked)
    (hip : c.ip = r.host.back)
    (h : Reaches r.step d n (.native f c) w (.native f' c') w') : n = 0 := by
  rcases le_one_of_back hr hip h with hn | ⟨-, ending, he⟩
  · exact hn
  · cases he

theorem eq_of_back {f f' : Frame} {c c' : Cpu} {s : State} {w w₁ w₂ : σ} {n m : Nat}
    (hr : r.Linked) (hip : c.ip = r.host.back) (hip' : c'.ip = r.host.back)
    (h : Reaches r.step d n s w (.native f c) w₁) (h' : Reaches r.step d m s w (.native f' c') w₂) :
    f = f' ∧ c = c' := by
  have hnm : n = m := by
    rcases Nat.le_total n m with hle | hle
    · have := eq_zero_of_back hr hip (h.sub h' hle)
      omega
    · have := eq_zero_of_back hr hip' (h'.sub h hle)
      omega
  subst hnm
  have heq := h.symm.trans h'
  cases heq
  exact ⟨rfl, rfl⟩

/-- A routine returns a status other than 0 just if a hook has kept an error. -/
theorem status_ne_zero_iff {p : Program} {t : Tree} {wrap : Wrap} {place : Target → Nat}
    (h : r.Holds p t wrap place) (hl : tape.length = p.tapeLength) {n : Nat} {w w' : σ}
    {f : Frame} {c : Cpu} (hreach : Reaches r.step d n (start tape) w (.native f c) w')
    (hip : c.ip = r.host.back) : (c.get .rax).toUInt32 ≠ 0 ↔ f.error.isSome := by
  obtain ⟨-, hback⟩ := called_entered (r := r) (hl ▸ h.fits) (h.length_le hl)
  have hopen : r.step (start tape) = .ask .canPeek (r.opened tape) := by
    rw [start, step, if_neg (not_not_intro (hl.trans h.tapeLength.symm))]
  have hfirst := Reaches.ask (d := d) (w := w) hopen
  -- a bound that the machine has not used up when it is back
  have hfollows := (follows_opened h hl (.self r p place tape) d (d .canPeek w).1 (n + 1)
    (d .canPeek w).2).after hfirst
  revert hfollows
  cases t.exec d (d .canPeek w).1 (n + 1) tape (d .canPeek w).2 with
  | through tape' world =>
    rintro ⟨m, _, hm, b, rfl, hret⟩
    obtain ⟨rfl, rfl⟩ := eq_of_back h.linked hip (hret.ip.trans hback) hreach hm
    rw [hret.status]
    simp
  | stopped e tape' world =>
    rintro ⟨m, _, hm, b, rfl, hret⟩
    obtain ⟨rfl, rfl⟩ := eq_of_back h.linked hip (hret.ip.trans hback) hreach hm
    rw [hret.status]
    simp
  | unfinished world =>
    rintro ⟨m, s', hm, hle⟩
    rcases le_one_of_back h.linked hip (hreach.sub hm (by omega)) with hn | ⟨hn, -⟩ <;> omega

/-! ## Whole runs -/

theorem compile_eq_ok {p : Program} {host : Host} (h : compile p host = .ok r) :
    ∃ operations code, p.lower.toExcept = .ok operations ∧
      assemble (fragments host.linkage operations) = .ok code ∧
      r = ⟨host, .ofBytes host.text code, p.tapeLength, p.instructions.map (·.position),
        p.tapeLength_pos⟩ := by
  rw [compile] at h
  cases hlower : p.lower.toExcept with
  | error e =>
    rw [hlower] at h
    cases h
  | ok operations =>
    rw [hlower] at h
    simp only [bind, Except.bind] at h
    cases hcode : assemble (fragments host.linkage operations) with
    | error e =>
      rw [hcode] at h
      cases h
    | ok code =>
      rw [hcode] at h
      cases h
      exact ⟨operations, code, rfl, hcode, rfl⟩

theorem fields_of_compile {p : Program} {host : Host} (h : compile p host = .ok r) :
    r.host = host ∧ r.tapeLength = p.tapeLength ∧
      r.positions = p.instructions.map (·.position) ∧ r.text.address 0 = r.host.text ∧
      r.text = .ofBytes r.host.text r.text.bytes := by
  obtain ⟨operations, code, -, -, rfl⟩ := compile_eq_ok h
  exact ⟨rfl, rfl, rfl, by simp [Text.address, Text.ofBytes], rfl⟩

/-- A compiled routine has the code of the tree of its program. -/
theorem layout_of_compile {p : Program} {t : Tree} {host : Host}
    (ht : t.flatten = p.instructions.toList) (hr : compile p host = .ok r) :
    r.size = p.codeSize host.linkage ∧ ∃ wrap place, Wrap.ofTapeLength p.tapeLength = .ok wrap ∧
      r.text.HasAt place 0 (t.routine host.linkage wrap) := by
  obtain ⟨operations, code, hlower, hcode, rfl⟩ := compile_eq_ok hr
  obtain ⟨wrap, hwrap, hcount, hlist⟩ := @Program.exists_of_lower p t host.linkage ht _ hlower
  have hshort : Fragment.sizes (t.routine host.linkage wrap) < 2 ^ 63 := by
    have hends : Fragment.sizes Block.prologue + Fragment.sizes Block.epilogue < 2 ^ 32 := by decide
    have hbody := @Tree.sizes_le_length host.linkage wrap t 0 0
    unfold maxInstructions at hcount
    rw [Tree.routine, Fragment.sizes_append, Fragment.sizes_append]
    omega
  rw [← hlist] at hshort
  obtain ⟨hsize, hplaces⟩ := hasAt_assemble (by rw [hlist]; exact t.nodup_marks_routine)
    (by rw [hlist]; exact t.sound_routine fun _ h => h) hshort hcode
  obtain ⟨place, hplace⟩ := hplaces 0 (by decide)
  have hat := hplace host.text code [] [] (by simp) rfl
  rw [hlist] at hsize hat
  exact ⟨hsize.trans (Program.codeSize_eq ht hwrap).symm, wrap, place, hwrap, hat⟩

/-- A routine that was compiled for a host where nothing is in the way. -/
theorem holds_of_compile {p : Program} {t : Tree} {host : Host}
    (ht : t.flatten = p.instructions.toList) (hred : t.Reduced p.tapeLength)
    (hr : compile p host = .ok r) (hf : host.Fits p.tapeLength r.size) :
    r.host = host ∧ ∃ wrap place, r.Holds p t wrap place := by
  obtain ⟨operations, code, hlower, -, -⟩ := compile_eq_ok hr
  obtain ⟨-, -, hcount, -⟩ := @Program.exists_of_lower p t host.linkage ht _ hlower
  rw [ht, Array.length_toList] at hcount
  obtain ⟨hsize, wrap, place, hwrap, hat⟩ := layout_of_compile ht hr
  obtain ⟨hhost, hlength, hpositions, hstart, htext⟩ := fields_of_compile hr
  rw [← hhost] at hf hsize hat
  exact ⟨hhost, wrap, place, hf.linked htext, hsize ▸ hf, hlength, hpositions, hat, hstart, ht,
    hred, hwrap, hcount⟩

theorem exists_compile {p : Program} {t : Tree} {wrap : Wrap} {host : Host}
    (hp : t.flatten = p.instructions.toList) (hred : t.Reduced p.tapeLength)
    (hw : Wrap.ofTapeLength p.tapeLength = .ok wrap) (hs : p.codeSize host.linkage < 2 ^ 31)
    (hf : host.Fits p.tapeLength (p.codeSize host.linkage)) :
    ∃ r place, compile p host = .ok r ∧ r.host = host ∧ r.Holds p t wrap place := by
  obtain ⟨operations, hlower, hlist⟩ := Program.exists_operations hp hw hs
  obtain ⟨code, hcode⟩ := @exists_assemble (fragments host.linkage operations)
    (by rw [hlist]; exact t.nodup_marks_routine)
    (by rw [hlist]; exact t.sound_routine fun _ h => h)
    (by rw [hlist, ← Program.codeSize_eq hp hw]; exact hs)
  obtain ⟨r, hr⟩ : ∃ r, compile p host = .ok r := by
    rw [compile, hlower]
    simp only [bind, Except.bind, hcode]
    exact ⟨_, rfl⟩
  have hsize := (layout_of_compile hp hr).1
  obtain ⟨hhost, wrap', place, hholds⟩ := holds_of_compile hp hred hr (hsize ▸ hf)
  cases hw.symm.trans hholds.wrap
  exact ⟨r, place, hr, hhost, hholds⟩

/-- On the standard host nothing is in the way. -/
theorem exists_compile_standard {source : String} {c : Config} {p : Program}
    (h : parse source c = .ok p) (hl : p.tapeLength ≤ maxTapeLength)
    (hs : p.codeSize Host.standard.linkage < 2 ^ 31) :
    ∃ r, compile p .standard = .ok r ∧ Host.standard.Fits p.tapeLength r.size := by
  obtain ⟨t, ht, hsimple⟩ := exists_tree h
  obtain ⟨wrap, hwrap⟩ := Wrap.exists_ofTapeLength hl
  obtain ⟨r, -, hr, -⟩ := exists_compile ht (tapeLength_of_parse h ▸ hsimple.reduced) hwrap hs
    (Host.fits_standard hl hs)
  exact ⟨r, hr, Host.fits_standard hl ((layout_of_compile ht hr).1 ▸ hs)⟩

/-- A program that was compiled for a host does there what the interpreter does. -/
theorem agrees_compile {source : String} {c : Config} {p : Program} (h : parse source c = .ok p)
    (hl : p.tapeLength ≤ maxTapeLength) (hm : 8 * p.maxDepth ≤ sizeLimit) (host : Host)
    (hs : p.codeSize host.linkage < 2 ^ 31)
    (hf : host.Fits p.tapeLength (p.codeSize host.linkage)) :
    ∃ r, compile p host = .ok r ∧
      ∀ (σ : Type) (d : Device byteStream σ) (tape : Tape) (world : σ),
        tape.length = p.tapeLength →
        (course r.step d.logged (start tape) (world, #[])).Agrees
          (course (Interpreter.step p) d.logged (Interpreter.start tape) (world, #[])) ∧
        ∀ n f cpu w, Reaches r.step d n (start tape) world (.native f cpu) w →
          cpu.ip = host.back → ((cpu.get .rax).toUInt32 ≠ 0 ↔ f.error.isSome) := by
  obtain ⟨t, ht, hsimple⟩ := exists_tree h
  have hlength : p.tapeLength = c.tapeLength := tapeLength_of_parse h
  obtain ⟨wrap, hwrap⟩ := Wrap.exists_ofTapeLength hl
  obtain ⟨r, place, hcompile, hhost, hholds⟩ :=
    exists_compile ht (hlength ▸ hsimple.reduced) hwrap hs hf
  refine ⟨r, hcompile, fun σ d tape world htape => ⟨?_, fun n f cpu w hreach hip => ?_⟩⟩
  · have hroutine := tracks hholds htape d.logged (world, #[])
    have hinterpreter := Interpreter.tracks ht hm htape d.logged (world, #[])
    exact (hroutine.agrees (course_stays _ _ _ _) (course_grows _ _ _ _)).trans
      (hinterpreter.agrees (course_stays _ _ _ _) (course_grows _ _ _ _)).symm
  · exact status_ne_zero_iff hholds htape hreach (hhost ▸ hip)

theorem agrees_compile_echo :
    ∃ (p : Program) (r : Routine), parse ",[.,]" .standard = .ok p ∧
      compile p .standard = .ok r ∧
      (course r.step (Cursor.source.beside collecting).logged
        (start (.blank 30000 (by decide))) ((.ofBytes #[1, 0], #[]), #[])).Agrees
        (course (Interpreter.step p) (Cursor.source.beside collecting).logged
          (Interpreter.start (.blank 30000 (by decide))) ((.ofBytes #[1, 0], #[]), #[])) := by
  obtain ⟨p, hp, hs⟩ : ∃ p, parse ",[.,]" .standard = .ok p ∧
      p.codeSize Host.standard.linkage < 2 ^ 31 := ⟨_, rfl, by decide +kernel⟩
  have hlength : p.tapeLength = 30000 := tapeLength_of_parse hp
  have hdepth : p.maxDepth = 256 := maxDepth_of_parse hp
  have hl : p.tapeLength ≤ maxTapeLength := by rw [hlength]; decide
  obtain ⟨r, hr, ha⟩ := agrees_compile hp hl (by rw [hdepth]; decide) .standard hs
    (Host.fits_standard hl hs)
  have hrun := ha _ (Cursor.source.beside collecting) (.blank 30000 (by decide))
    (.ofBytes #[1, 0], #[]) hlength.symm
  exact ⟨p, r, hp, hr, hrun.1⟩

end Routine

end TapeLang
