import TapeLang.Proofs.Native.Hosted
import TapeLang.Proofs.Streams.Interpreter

/-!
# Compiled routines and their streams

The streams of a compiled routine are used by its hooks. That these are called as they should be is
known where they are called; that they are not called in any other way follows from where the runs
lead, by way of a machine that would stop there.

* `Routine.view`: what there is to see of a state of a routine.
* `Routine.orderly_of_reached`: hooks are only called as they should be.
* `Routine.Goes`: what the processor does next.
* `Routine.ends_of_failed`: a hook that fails stops the routine, with the tape as it is then.
* `Routine.conducts`: a routine conducts its transfers.
-/

namespace TapeLang.Routine

open X86 Native

/-! ## What there is to see -/

/-- The tape inside of the routine, where the pointer is in a register; `before` if there is
none. -/
def held (r : Routine) (c : Cpu) (before : Tape) : Tape :=
  let pointer := (c.get .r12).toNat
  match c.memory.regions.find? (·.base == r.host.tape) with
  | some region => if h : pointer < region.bytes.size then ⟨region.bytes, pointer, h⟩ else before
  | none => before

/-- The tape of a state. A routine that has returned has put the pointer back into memory. -/
def standing (r : Routine) : State → Tape
  | .opening tape => tape
  | .native f c => if c.ip = r.host.back then r.recover c f.tape else r.held c f.tape
  | .calling f c _ _ _ => r.held c f.tape
  | .closed ending => ending.tape

/-- The index that a hook is given: that of the instruction it is called for. -/
def given (c : Cpu) (isRead : Bool) : Nat :=
  (c.get (if isRead then .rsi else .rdx)).toUInt32.toNat

/-- The index of an instruction whose hook is called. -/
def index (r : Routine) : State → Nat
  | .native _ c => given c (c.ip == r.host.readHook)
  | .calling _ c isRead _ _ => given c isRead
  | _ => 0

def State.seen : State → Phase
  | .opening _ => .opening
  | .native f _ => f.error.elim (.working f.canPeek) fun e => .decided (.failed e)
  | .calling f _ _ position stage => .calling f.canPeek (stage.call position) stage
  | .closed ending => .decided ending.verdict

/-- A read or a write whose hook has just been called. -/
def State.call? (r : Routine) (p : Program) : State → Option Call
  | .native f c =>
    if c.ip = r.host.readHook ∨ c.ip = r.host.writeHook then
      p.call? (r.index (.native f c)) (r.held c f.tape)
    else none
  | _ => none

def view (r : Routine) (p : Program) : View State :=
  ⟨State.seen, State.call? r p, r.standing, r.index⟩

variable {r : Routine} {p : Program} {f : Frame} {c : Cpu}

theorem State.seen_native (f : Frame) (c : Cpu) : (State.native f c).seen =
    f.error.elim (.working f.canPeek) fun e => .decided (.failed e) := rfl

theorem State.seen_of_sane (h : f.error = none) (c : Cpu) :
    (State.native f c).seen = .working f.canPeek := by
  rw [seen_native, h]
  rfl

theorem State.seen_of_broken {e : RunError} (h : f.error = some e) (c : Cpu) :
    (State.native f c).seen = .decided (.failed e) := by
  rw [seen_native, h]
  rfl

theorem State.call?_native (r : Routine) (p : Program) (f : Frame) (c : Cpu) :
    (State.native f c).call? r p =
      if c.ip = r.host.readHook ∨ c.ip = r.host.writeHook then
        p.call? (given c (c.ip == r.host.readHook)) (r.held c f.tape)
      else none := rfl

theorem State.call?_of_ne (hr : c.ip ≠ r.host.readHook) (hw : c.ip ≠ r.host.writeHook) :
    (State.native f c).call? r p = none := if_neg (not_or.mpr ⟨hr, hw⟩)

theorem State.call?_of_back (hl : r.Linked) (h : c.ip = r.host.back) :
    (State.native f c).call? r p = none := by
  refine call?_of_ne ?_ ?_
  · rw [h]
    exact hl.readHook_ne_back.symm
  · rw [h]
    exact hl.writeHook_ne_back.symm

theorem State.call?_of_readHook (h : c.ip = r.host.readHook) :
    (State.native f c).call? r p = p.call? (given c true) (r.held c f.tape) := by
  rw [call?_native, if_pos (.inl h), h, beq_self_eq_true]

theorem State.call?_of_writeHook (hl : r.Linked) (h : c.ip = r.host.writeHook) :
    (State.native f c).call? r p = p.call? (given c false) (r.held c f.tape) := by
  rw [call?_native, if_pos (.inr h), h, beq_eq_false_iff_ne.mpr hl.writeHook_ne_readHook]

theorem State.eq_of_opening {s : State} (h : s.seen = .opening) : ∃ tape, s = .opening tape := by
  cases s with
  | opening tape => exact ⟨tape, rfl⟩
  | native f c => cases hf : f.error <;> simp [seen_native, hf] at h
  | calling f c isRead position stage => cases h
  | closed ending => cases h

theorem State.eq_of_working {s : State} {canPeek : Bool} (h : s.seen = .working canPeek) :
    ∃ f c, s = .native f c ∧ f.error = none ∧ f.canPeek = canPeek := by
  cases s with
  | opening tape => cases h
  | native f c =>
    cases hf : f.error with
    | none =>
      rw [seen_of_sane hf] at h
      cases h
      exact ⟨f, c, rfl, hf, rfl⟩
    | some e =>
      rw [seen_of_broken hf] at h
      cases h
  | calling f c isRead position stage => cases h
  | closed ending => cases h

theorem State.eq_of_calling {s : State} {canPeek : Bool} {call : Call} {t : Transfer}
    (h : s.seen = .calling canPeek call t) : ∃ f c isRead position,
      s = .calling f c isRead position t ∧ f.canPeek = canPeek ∧ t.call position = call := by
  cases s with
  | opening tape => cases h
  | native f c => cases hf : f.error <;> simp [seen_native, hf] at h
  | calling f c isRead position stage =>
    cases h
    exact ⟨f, c, isRead, position, rfl, rfl, rfl⟩
  | closed ending => cases h

theorem State.eq_of_decided {s : State} {verdict : Verdict} (h : s.seen = .decided verdict) :
    (∃ f c e, s = .native f c ∧ f.error = some e ∧ verdict = .failed e) ∨
      ∃ ending, s = .closed ending ∧ verdict = ending.verdict := by
  cases s with
  | opening tape => cases h
  | native f c =>
    cases hf : f.error with
    | none =>
      rw [seen_of_sane hf] at h
      cases h
    | some e =>
      rw [seen_of_broken hf] at h
      cases h
      exact .inl ⟨f, c, e, rfl, hf, rfl⟩
  | calling f c isRead position stage => cases h
  | closed ending =>
    cases h
    exact .inr ⟨ending, rfl, rfl⟩

/-! ## Hooks that are called as they should be -/

variable {place : Target → Nat} {tape : Tape} {isRead : Bool} {position : Option Position}
  {stage : Transfer}

/-- The tape while a hook is called. -/
theorem Resumes.held_eq {s : Cpu} {tape' : Tape} {k : Nat}
    (hres : r.Resumes s tape.length tape' k c) (he : Entered (r.entered tape) s)
    (hl : tape.length ≤ maxTapeLength) (before : Tape) : r.held c before = tape' := by
  have hbody := hres.body
  obtain ⟨rest, hshape⟩ := shape_entered r tape
  rw [← he.shape, ← hbody.shape, Cpu.memory_set, ← hbody.length_eq] at hshape
  have hcells := hbody.carries
  rw [Cpu.memory_set, he.tape] at hcells
  rw [← hbody.length_eq] at hl
  obtain ⟨region, hfind, hbytes⟩ := exists_region hshape hl hcells
  have hpointer : c.get .r12 = tape'.pointer.toUInt64 := by
    rw [← hbody.pointer, Cpu.get_set, if_neg (by decide)]
  rw [held, hfind]
  simp only [hpointer, toNat_pointer hl, hbytes, tape'.pointer_lt, dif_pos]

namespace InHook

variable (hin : r.InHook p place tape f c isRead position stage)
include hin

theorem error_eq : f.error = none := congrArg Frame.error hin.frame

/-- A write is given the current cell. -/
theorem cell_eq (hl : tape.length ≤ maxTapeLength) (hw : isRead = false) (before : Tape) :
    (c.get .rsi).toUInt8 = (r.held c before).get := by
  obtain ⟨s, tape', k, rest, he, hres, -, hcell⟩ := hin.resumes
  rw [hres.held_eq he hl, hcell hw]

/-- The phase after a reply to a stage of a transfer. -/
theorem seen_afterTransfer (reply : stage.request.Reply) :
    (State.afterTransfer r f c isRead position (stage.resume f.canPeek position reply)).seen =
      .after f.canPeek (stage.call position)
        (stage.resume f.canPeek (stage.call position).position reply) := by
  obtain ⟨s, tape', k, rest, -, hres, -, -⟩ := hin.resumes
  rw [Transfer.resume_call]
  cases hr : stage.resume f.canPeek position reply with
  | stage t' =>
    rw [Phase.after, ← Transfer.call_of_resume hr]
    rfl
  | done outcome =>
    cases outcome with
    | received byte =>
      obtain ⟨c', hret, -⟩ := hres.returns byte.toUInt32
      rw [State.afterTransfer, hret]
      exact State.seen_of_sane hin.error_eq c'
    | sent =>
      obtain ⟨c', hret, -⟩ := hres.returns 0
      rw [State.afterTransfer, hret]
      exact State.seen_of_sane hin.error_eq c'
    | failed e =>
      obtain ⟨c', hret, -⟩ := hres.returns (if isRead then 0xFFFFFFFF else 1)
      rw [State.afterTransfer, hret]
      exact State.seen_of_broken rfl c'

end InHook

theorem ofOutcome_ne_opening (f : Frame) (o : Cpu.Outcome) (tape : Tape) :
    State.ofOutcome f o ≠ .opening tape := by
  cases o <;> nofun

/-! ## Runs -/

variable {σ : Type} {t : Tree} {wrap : Wrap} {d : Device byteStream σ} {w : σ}

/-- Trees do not crash. -/
theorem not_crashed (t : Tree) (d : Device byteStream σ) (tape tape' : Tape) (w w' : σ)
    (reason : Crash) : ¬ (t.course d tape w).Ends ⟨.crashed reason, tape'⟩ w' := by
  rintro ⟨n, hn⟩
  simp only [Tree.course] at hn
  cases hp : t.exec d (d .canPeek w).1 n tape (d .canPeek w).2 with
  | through tape₁ w₁ =>
    rw [hp, Tree.conclude] at hn
    cases hreply : (d .flush w₁).1 <;> rw [hreply] at hn <;> cases hn
  | stopped e tape₁ w₁ =>
    rw [hp] at hn
    cases hn
  | unfinished w₁ =>
    rw [hp] at hn
    cases hn

section Runs

variable (h : r.Holds p t wrap place) (hl : tape.length = p.tapeLength)
include h hl

theorem Mimics.not_crashed {step : State → Action byteStream State Ending}
    (hmimics : r.Mimics p place tape step) (d : Device byteStream σ) (w w' : σ) (reason : Crash)
    (tape' : Tape) : ¬ (course step d (start tape) w).Ends ⟨.crashed reason, tape'⟩ w' := by
  intro he
  have htracks := Mimics.tracks h hl hmimics d w
  exact Routine.not_crashed t d tape tape' w w' reason
    ((htracks.ends_iff (course_stays _ _ _ _) _ _).mp he)

/-- Hooks are only called as they should be. -/
theorem orderly_of_reached {s : State} (hs : Reached r.step d (start tape) w s) :
    r.Orderly p place tape s := by
  obtain ⟨n, w', hn⟩ := hs
  have hmimics : r.Mimics p place tape
      (guard (r.Orderly p place tape) ⟨.crashed .emptyTape, tape⟩ r.step) := by
    intro s hs
    exact guard_of_holds hs
  refine hn.satisfies (r := ⟨.crashed .emptyTape, tape⟩) ?_
  intro w'
  exact Mimics.not_crashed h hl hmimics d w w' _ _

theorem step_ne_crashed {s : State} (hs : Reached r.step d (start tape) w s) (reason : Crash)
    (tape' : Tape) : r.step s ≠ .halt ⟨.crashed reason, tape'⟩ := by
  intro hstep
  obtain ⟨n, w', hn⟩ := hs
  exact Mimics.not_crashed h hl (.self r p place tape) d w w' _ _ (ends_of_reaches hn hstep)

/-! ## What the processor does next -/

/-- The processor stays in the routine, is back at its caller, or calls a hook with its context. -/
inductive Goes (r : Routine) (f : Frame) (c : Cpu) : Prop
  | on {c' : Cpu} : r.step (.native f c) = .next (.native f c') → c.ip ≠ r.host.readHook →
    c.ip ≠ r.host.writeHook → Goes r f c
  | back : c.ip = r.host.back → Goes r f c
  | reads : c.ip = r.host.readHook → c.get .rdi = r.host.context → Goes r f c
  | writes : c.ip = r.host.writeHook → c.get .rdi = r.host.context → Goes r f c

/-- Hooks are only called with their context. -/
theorem context_eq_of_reached {isRead : Bool} {position : Option Position} {stage : Transfer}
    (hs : Reached r.step d (start tape) w (.native f c))
    (hstep : r.step (.native f c) = r.hooked f c isRead position stage) :
    c.get .rdi = r.host.context := by
  by_cases hc : c.get .rdi = r.host.context
  · exact hc
  · rw [hooked, if_neg hc] at hstep
    exact absurd hstep (step_ne_crashed h hl hs _ _)

theorem goes_of_reached (hs : Reached r.step d (start tape) w (.native f c)) : Goes r f c := by
  cases hfetch : r.text.fetch? c.ip with
  | some found =>
    obtain ⟨i, size⟩ := found
    have hstep : r.step (.native f c) =
        .next (.ofOutcome f ((c.skip size.toUInt64).execute i)) := by
      simp only [step, Cpu.fetch?, hfetch]
    obtain ⟨n, w', hn⟩ := hs
    have hnext : Reached r.step d (start tape) w _ := ⟨_, w', hn.trans (.next hstep)⟩
    cases ho : (c.skip size.toUInt64).execute i with
    | running c' =>
      rw [ho] at hstep
      refine .on hstep ?_ ?_
      · intro hip
        cases (hip ▸ hfetch).symm.trans h.linked.readHook
      · intro hip
        cases (hip ▸ hfetch).symm.trans h.linked.writeHook
    | systemCall c' =>
      rw [ho] at hnext
      exact absurd rfl (step_ne_crashed h hl hnext _ _)
    | crashed reason =>
      rw [ho] at hnext
      exact absurd rfl (step_ne_crashed h hl hnext _ _)
  | none =>
    by_cases hback : c.ip = r.host.back
    · exact .back hback
    · by_cases hread : c.ip = r.host.readHook
      · exact .reads hread (context_eq_of_reached h hl hs (step_atReadHook h.linked hread))
      · by_cases hwrite : c.ip = r.host.writeHook
        · exact .writes hwrite (context_eq_of_reached h hl hs (step_atWriteHook h.linked hwrite))
        · have hstep : r.step (.native f c) = .halt ⟨.crashed (.badInstruction c.ip), f.tape⟩ := by
            rw [step_outside hfetch, outside, if_neg hback, if_neg hread, if_neg hwrite]
          exact absurd hstep (step_ne_crashed h hl hs _ _)

/-- A read hook is only called if no hook has failed. -/
theorem inHook_of_read (hs : Reached r.step d (start tape) w (.native f c))
    (hip : c.ip = r.host.readHook) (hc : c.get .rdi = r.host.context) :
    r.InHook p place tape f c true (r.positions[(c.get .rsi).toUInt32.toNat]?.join) .prompt := by
  obtain ⟨n, w', hn⟩ := hs
  exact orderly_of_reached h hl ⟨_, w', hn.trans (.next (step_read h.linked hip hc))⟩

theorem inHook_of_write (hs : Reached r.step d (start tape) w (.native f c))
    (hip : c.ip = r.host.writeHook) (hc : c.get .rdi = r.host.context) :
    r.InHook p place tape f c false none (.offer (c.get .rsi).toUInt8) := by
  obtain ⟨n, w', hn⟩ := hs
  exact orderly_of_reached h hl ⟨_, w', hn.trans (.next (step_write h.linked hip hc))⟩

/-- Back at its caller a routine without an error has only the last flush left. -/
theorem step_of_sane (hs : Reached r.step d (start tape) w (.native f c))
    (hip : c.ip = r.host.back) (he : f.error = none) :
    r.step (.native f c) = .ask .flush (finished (r.recover c f.tape)) := by
  obtain ⟨n, w', hn⟩ := hs
  have hstatus := status_ne_zero_iff h hl hn hip
  rw [he] at hstatus
  have hzero : (c.get .rax).toUInt32 = 0 := by
    by_cases hz : (c.get .rax).toUInt32 = 0
    · exact hz
    · cases hstatus.mp hz
  rw [step_back h.linked hip, returned, if_pos hzero]

theorem step_of_broken (hs : Reached r.step d (start tape) w (.native f c))
    (hip : c.ip = r.host.back) {e : RunError} (he : f.error = some e) :
    r.step (.native f c) = .halt ⟨.failed e, r.recover c f.tape⟩ := by
  obtain ⟨n, w', hn⟩ := hs
  have hstatus := status_ne_zero_iff h hl hn hip
  rw [he] at hstatus
  rw [step_back h.linked hip, returned, if_neg (hstatus.mpr rfl), he]
  rfl

/-- At work a routine moves on, calls a hook, or returns. -/
theorem works_of_reached (hs : Reached r.step d (start tape) w (.native f c))
    (he : f.error = none) : Works r.step (r.view p) f.canPeek (.native f c) := by
  cases goes_of_reached h hl hs with
  | @on c' hstep hr hw => exact .moves hstep (State.call?_of_ne hr hw) (State.seen_of_sane he c')
  | back hip =>
    have hstep := step_of_sane h hl hs hip he
    have htape : r.standing (.native f c) = r.recover c f.tape := if_pos hip
    refine .ends hstep (State.call?_of_back h.linked hip) ?_
    intro reply
    simp only [view, htape]
    cases reply with
    | ok => exact ⟨rfl, rfl⟩
    | error failure => exact ⟨rfl, rfl⟩
  | reads hip hc =>
    have hin := inHook_of_read h hl hs hip hc
    have hcall : (State.native f c).call? r p = some (.read _) :=
      (State.call?_of_readHook hip).trans (Program.call?_of_read (hin.reads rfl) _)
    exact .calls (step_read h.linked hip hc) hcall rfl
  | writes hip hc =>
    have hin := inHook_of_write h hl hs hip hc
    obtain ⟨q, hhere⟩ := hin.writes rfl
    have hcall : (State.native f c).call? r p = some (.write (r.held c f.tape).get) :=
      (State.call?_of_writeHook h.linked hip).trans (Program.call?_of_write hhere _)
    rw [← hin.cell_eq (h.length_le hl) rfl f.tape] at hcall
    exact .calls (step_write h.linked hip hc) hcall rfl

/-! ## Failures -/

/-- A hook that fails stops the routine, with the tape as it is then. -/
theorem ends_of_failed (hin : r.InHook p place tape f c isRead position stage) (e : RunError)
    (d : Device byteStream σ) (w : σ) :
    (course r.step d (State.afterTransfer r f c isRead position (.done (.failed e))) w).Ends
      ⟨.failed e, r.held c f.tape⟩ w := by
  obtain ⟨s, tape', k, rest, hentered, hres, htest, -⟩ := hin.resumes
  have hmimics := Mimics.self r p place tape
  obtain ⟨hcalled, -⟩ := called_entered (r := r) (hl ▸ h.fits) (h.length_le hl)
  obtain ⟨result, hresult⟩ : ∃ v : UInt32, v = if isRead then 0xFFFFFFFF else 1 := ⟨_, rfl⟩
  have hfails : (Flags.ofBits32 result).holds (failure isRead) = true := by
    rw [hresult]
    cases isRead with
    | true => decide
    | false => decide
  obtain ⟨c₁, hr₁, hip₁, hw₁, -⟩ := hres.reaches_test (d := d) hmimics htest
    { f with error := some e } result w
  rw [if_pos hfails] at hip₁
  have hcode := h.code
  rw [Tree.routine, Text.hasAt_append, Text.hasAt_append] at hcode
  obtain ⟨-, -, hepilogue⟩ := hcode
  obtain ⟨n, c₂, hr₂, hret⟩ := reaches_fail (d := d) (hmimics.drives { f with error := some e })
    hcalled hentered hepilogue hip₁ hw₁ w
  have hstep := step_returned h hl (f := { f with error := some e }) hret
  rw [State.afterTransfer, ← hresult, hres.held_eq hentered (h.length_le hl)]
  exact ends_of_reaches (hr₁.trans hr₂) hstep

/-! ## The opening -/

/-- Nothing leads back to the opening. -/
theorem ne_opening_of_acts {s s' : State} {w₁ w₂ : σ} (hs : Reached r.step d (start tape) w s)
    (ha : Acts r.step d s w₁ s' w₂) : ∀ tape', s' ≠ .opening tape' := by
  cases s with
  | opening tape₁ =>
    by_cases ht : tape₁.length ≠ r.tapeLength
    · exact absurd (if_pos ht) ha.step_ne_halt
    · obtain ⟨rfl, -⟩ := ha.eq_ask (if_neg ht)
      nofun
  | native f c =>
    cases goes_of_reached h hl hs with
    | on hstep =>
      obtain ⟨rfl, -⟩ := ha.eq_next hstep
      nofun
    | back hip =>
      cases he : f.error with
      | none =>
        obtain ⟨rfl, -⟩ := ha.eq_ask (step_of_sane h hl hs hip he)
        cases (d .flush w₁).1 <;> nofun
      | some e => exact absurd (step_of_broken h hl hs hip he) ha.step_ne_halt
    | reads hip hc =>
      obtain ⟨rfl, -⟩ := ha.eq_next (step_read h.linked hip hc)
      nofun
    | writes hip hc =>
      obtain ⟨rfl, -⟩ := ha.eq_next (step_write h.linked hip hc)
      nofun
  | calling f c isRead position stage =>
    obtain ⟨rfl, -⟩ := ha.eq_ask rfl
    cases stage.resume f.canPeek position (d stage.request w₁).1 with
    | stage t' => nofun
    | done outcome =>
      cases outcome with
      | received byte => exact ofOutcome_ne_opening _ _
      | sent => exact ofOutcome_ne_opening _ _
      | failed e => exact ofOutcome_ne_opening _ _
  | closed ending => exact absurd rfl ha.step_ne_halt

theorem eq_of_opening {tape' : Tape} (hs : Reached r.step d (start tape) w (.opening tape')) :
    tape' = tape := by
  obtain ⟨n, w', hn⟩ := hs
  cases n with
  | zero =>
    cases hn
    rfl
  | succ n =>
    obtain ⟨s, u, hs, ha⟩ := hn.exists_last
    exact absurd rfl (ne_opening_of_acts h hl ⟨n, u, hs⟩ ha tape')

/-! ## The whole routine -/

/-- An interrupted offer leaves everything as it was. -/
theorem eq_of_interrupted {s : State} {byte : UInt8} {resume : Except Failure Bool → State}
    {failure : Failure} (hs : Reached r.step d (start tape) w s)
    (ha : r.step s = .ask (.put byte) resume) (hk : failure.kind = .interrupted) :
    resume (.error failure) = s := by
  cases s with
  | opening tape' =>
    rw [step] at ha
    split at ha <;> cases ha
  | native f c =>
    cases goes_of_reached h hl hs with
    | on hstep => cases hstep.symm.trans ha
    | back hip =>
      cases he : f.error with
      | none => cases (step_of_sane h hl hs hip he).symm.trans ha
      | some e => cases (step_of_broken h hl hs hip he).symm.trans ha
    | reads hip hc => cases (step_read h.linked hip hc).symm.trans ha
    | writes hip hc => cases (step_write h.linked hip hc).symm.trans ha
  | calling f c isRead position stage =>
    cases stage with
    | offer other =>
      cases ha
      simp only [Transfer.resume, if_pos hk, State.afterTransfer]
    | prompt | look | wait | take => cases ha
  | closed ending => cases ha

/-- A routine conducts its transfers. -/
theorem conducts (d : Device byteStream σ) (w : σ) :
    Conducts p r.step (r.view p) (Reached r.step d (start tape) w) where
  opening s hs hp := by
    obtain ⟨tape', rfl⟩ := State.eq_of_opening hp
    obtain rfl := eq_of_opening h hl hs
    have hstep : r.step (.opening tape') = .ask .canPeek (r.opened tape') := by
      rw [step, if_neg (not_not_intro (hl.trans h.tapeLength.symm))]
    refine ⟨rfl, _, hstep, ?_⟩
    intro canPeek
    exact .inl rfl
  working s canPeek hs hp := by
    obtain ⟨f, c, rfl, he, rfl⟩ := State.eq_of_working hp
    exact works_of_reached h hl hs he
  calling s canPeek call t hs hp := by
    obtain ⟨f, c, isRead, position, rfl, rfl, rfl⟩ := State.eq_of_calling hp
    have hin : r.InHook p place tape f c isRead position t := orderly_of_reached h hl hs
    refine ⟨rfl, _, rfl, ?_⟩
    intro reply
    exact hin.seen_afterTransfer reply
  decided s verdict hs hp := by
    rcases State.eq_of_decided hp with ⟨f, c, e, rfl, he, rfl⟩ | ⟨ending, rfl, rfl⟩
    · cases goes_of_reached h hl hs with
      | @on c' hstep hr hw =>
        exact ⟨State.call?_of_ne hr hw, .inl ⟨_, hstep, State.seen_of_broken he c'⟩⟩
      | back hip =>
        have hstep := step_of_broken h hl hs hip he
        exact ⟨State.call?_of_back h.linked hip, .inr ⟨_, hstep, rfl⟩⟩
      | reads hip hc => cases he.symm.trans (inHook_of_read h hl hs hip hc).error_eq
      | writes hip hc => cases he.symm.trans (inHook_of_write h hl hs hip hc).error_eq
    · exact ⟨rfl, .inr ⟨ending, rfl, rfl⟩⟩
  failed s canPeek call t resume reply e hs hp ha he τ d w := by
    obtain ⟨f, c, isRead, position, rfl, rfl, rfl⟩ := State.eq_of_calling hp
    have hin : r.InHook p place tape f c isRead position t := orderly_of_reached h hl hs
    cases ha
    rw [Transfer.resume_call] at he
    simp only [he]
    exact ends_of_failed h hl hin e d w
  reads s canPeek position t hs hp := by
    obtain ⟨f, c, isRead, position', rfl, rfl, hcall⟩ := State.eq_of_calling hp
    have hin : r.InHook p place tape f c isRead position' t := orderly_of_reached h hl hs
    obtain ⟨hread, rfl⟩ := Transfer.isRead_of_call hcall
    obtain rfl := hin.kind.symm.trans hread
    exact hin.reads rfl
  kind s canPeek call t hs hp hread := by
    obtain ⟨f, c, isRead, position, rfl, rfl, rfl⟩ := State.eq_of_calling hp
    exact ⟨_, Transfer.call_eq_read hread position⟩
  retries s byte resume failure hs ha hk := eq_of_interrupted h hl hs ha hk

end Runs

end TapeLang.Routine
