import TapeLang.Proofs.Interpreter
import TapeLang.Proofs.Streams.Fault

/-!
# The interpreter and its streams

* `Interpreter.view`: what there is to see of a state of the interpreter.
* `Interpreter.conducts`: the interpreter conducts its transfers.
-/

namespace TapeLang

/-- The instruction that a transfer is for. -/
def Transfer.call (t : Transfer) (position : Option Position) : Call :=
  match t with
  | offer byte => .write byte
  | _ => .read position

namespace Transfer

variable {t t' : Transfer} {canPeek : Bool} {position : Option Position}

/-- It stays the same from stage to stage. -/
theorem call_of_resume {reply : t.request.Reply} (h : t.resume canPeek position reply = .stage t')
    (position' : Option Position) : t'.call position' = t.call position' := by
  obtain ⟨hread, hoffer⟩ := stage_of_resume h
  cases t' with
  | offer byte => rw [hoffer byte rfl]
  | prompt | look | wait | take =>
    cases t with
    | offer byte => cases hread
    | prompt | look | wait | take => rfl

/-- Its position is the only one that matters. -/
theorem resume_call (t : Transfer) (canPeek : Bool) (position : Option Position)
    (reply : t.request.Reply) :
    t.resume canPeek (t.call position).position reply = t.resume canPeek position reply := by
  cases t with
  | offer byte => exact resume_position rfl canPeek _ _ reply
  | prompt | look | wait | take => rfl

theorem call_eq_read (h : t.isRead) (position : Option Position) :
    t.call position = .read position := by
  cases t with
  | offer byte => cases h
  | prompt | look | wait | take => rfl

theorem isRead_of_call {position' : Option Position} (h : t.call position = .read position') :
    t.isRead ∧ position = position' := by
  cases t with
  | offer byte => cases h
  | prompt | look | wait | take =>
    cases h
    exact ⟨rfl, rfl⟩

end Transfer

namespace Interpreter

variable {σ : Type} {p : Program} {s : State} {tape : Tape}

def State.seen (p : Program) (s : State) : TapeLang.Phase :=
  match s.phase with
  | .opening => .opening
  | .running => .working s.canPeek
  | .transferring t => .calling s.canPeek (t.call (p.position? s.cursor)) t
  | .closed verdict => .decided verdict

/-- A read or a write that is executed and not skipped. -/
def State.call? (p : Program) (s : State) : Option Call :=
  if s.phase = .running ∧ s.skip = 0 then p.call? s.cursor s.tape else none

def view (p : Program) : View State := ⟨State.seen p, State.call? p, State.tape, State.cursor⟩

theorem State.call?_of_phase (h : s.phase ≠ .running) : s.call? p = none := if_neg fun hr => h hr.1

theorem State.call?_of_skip (h : s.skip ≠ 0) : s.call? p = none := if_neg fun hr => h hr.2

theorem State.call?_of_running (hp : s.phase = .running) (hs : s.skip = 0) :
    s.call? p = p.call? s.cursor s.tape := if_pos ⟨hp, hs⟩

theorem State.call?_eq_none (h : p.call? s.cursor s.tape = none) : s.call? p = none := by
  rw [call?, h]
  exact ite_self none

theorem State.seen_of_running {s' : State} (hp : s'.phase = .running)
    (hc : s'.canPeek = s.canPeek) : s'.seen p = .working s.canPeek := by
  rw [seen, hp, hc]

theorem State.phase_of_opening (h : s.seen p = .opening) : s.phase = .opening := by
  unfold seen at h
  split at h <;> first | assumption | cases h

theorem State.phase_of_decided {verdict : Verdict} (h : s.seen p = .decided verdict) :
    s.phase = .closed verdict := by
  unfold seen at h
  split at h <;> cases h
  assumption

theorem State.phase_of_working {canPeek : Bool} (h : s.seen p = .working canPeek) :
    s.phase = .running ∧ canPeek = s.canPeek := by
  unfold seen at h
  split at h <;> cases h
  exact ⟨by assumption, rfl⟩

theorem State.phase_of_calling {canPeek : Bool} {call : Call} {t : Transfer}
    (h : s.seen p = .calling canPeek call t) : s.phase = .transferring t ∧
      canPeek = s.canPeek ∧ call = t.call (p.position? s.cursor) := by
  unfold seen at h
  split at h <;> cases h
  exact ⟨by assumption, rfl, rfl⟩

/-! ## Working -/

/-- An instruction that does not use the streams. -/
theorem works_of_moves {op : Op} {position : Option Position}
    (hp : s.phase = .running) (hi : p.instructions[s.cursor]? = some ⟨op, position⟩)
    (hc : s.call? p = none) (hphase : (s.execute op).phase = .running)
    (hpeek : (s.execute op).canPeek = s.canPeek) :
    Works (step p) (view p) s.canPeek s := by
  have hstep : step p s = .next (s.execute op) := by simp only [step, hp, hi]
  exact .moves hstep hc (State.seen_of_running hphase hpeek)

theorem works_of_command {c : Command} {position : Option Position}
    (hp : s.phase = .running) (hi : p.instructions[s.cursor]? = some ⟨c.op, position⟩)
    (hs : s.skip = 0) : Works (step p) (view p) s.canPeek s := by
  have hexecute := State.execute_of_running hs c
  have hposition : p.position? s.cursor = position := by
    rw [Program.position?, hi]
    rfl
  have hstep : step p s = .next (s.perform c) := by simp only [step, hp, hi, hexecute]
  have hcall := State.call?_of_running (p := p) hp hs
  cases c with
  | move n | add n | reset =>
    rw [Program.call?_eq_none hi (by simp [Command.op]) (by simp [Command.op])] at hcall
    exact works_of_moves hp hi hcall (by rw [hexecute]; exact hp) (by rw [hexecute]; rfl)
  | read =>
    rw [Program.call?_of_read hi] at hcall
    refine .calls hstep hcall ?_
    rw [← hposition]
    rfl
  | write =>
    rw [Program.call?_of_write hi] at hcall
    exact .calls hstep hcall rfl

theorem works_of_running (hp : s.phase = .running) :
    Works (step p) (view p) s.canPeek s := by
  cases hi : p.instructions[s.cursor]? with
  | none =>
    have hstep : step p s = .ask .flush (finished s) := by simp only [step, hp, hi]
    have hcall : s.call? p = none := State.call?_eq_none (by rw [Program.call?, hi])
    refine .ends hstep hcall ?_
    intro reply
    cases reply with
    | ok => exact ⟨rfl, rfl⟩
    | error f => exact ⟨rfl, rfl⟩
  | some i =>
    obtain ⟨op, position⟩ := i
    rcases op.bracket_or_command with rfl | rfl | ⟨c, rfl⟩
    · have hcall := State.call?_eq_none (Program.call?_eq_none hi (by simp) (by simp) s.tape)
      exact works_of_moves hp hi hcall hp rfl
    · have hcall := State.call?_eq_none (Program.call?_eq_none hi (by simp) (by simp) s.tape)
      have hloop : (s.execute .loopEnd).phase = s.phase ∧
          (s.execute .loopEnd).canPeek = s.canPeek := by
        rw [State.execute_loopEnd, State.closeLoop]
        split <;> exact ⟨rfl, rfl⟩
      exact works_of_moves hp hi hcall (hloop.1.trans hp) hloop.2
    · by_cases hs : s.skip = 0
      · exact works_of_command hp hi hs
      · have hexecute := State.execute_of_skip hs c
        exact works_of_moves hp hi (State.call?_of_skip hs) (by rw [hexecute]; exact hp)
          (by rw [hexecute]; rfl)

/-! ## Transfers -/

/-- The phase after a reply to a stage of a transfer. -/
theorem seen_afterTransfer (p : Program) (s : State) {t : Transfer} (reply : t.request.Reply) :
    (s.afterTransfer (t.resume s.canPeek (p.position? s.cursor) reply)).seen p =
      .after s.canPeek (t.call (p.position? s.cursor))
        (t.resume s.canPeek (t.call (p.position? s.cursor)).position reply) := by
  rw [Transfer.resume_call]
  cases hr : t.resume s.canPeek (p.position? s.cursor) reply with
  | stage t' =>
    rw [Phase.after, ← Transfer.call_of_resume hr]
    rfl
  | done outcome => cases outcome <;> rfl

theorem step_transferring {t : Transfer} (ht : s.phase = .transferring t) :
    step p s = .ask t.request fun reply =>
      s.afterTransfer (t.resume s.canPeek (p.position? s.cursor) reply) := by
  simp only [step, ht]

/-- An interrupted offer leaves everything as it was. -/
theorem eq_of_interrupted {byte : UInt8} {resume : Except Failure Bool → State} {f : Failure}
    (ha : step p s = .ask (.put byte) resume) (hk : f.kind = .interrupted) :
    resume (.error f) = s := by
  cases hp : s.phase with
  | opening =>
    simp only [step, hp] at ha
    split at ha <;> cases ha
  | running =>
    simp only [step, hp] at ha
    split at ha <;> cases ha
  | closed verdict =>
    simp only [step, hp] at ha
    cases ha
  | transferring t =>
    have hstep := (step_transferring (p := p) hp).symm.trans ha
    cases t with
    | offer other =>
      cases hstep
      simp only [Transfer.resume, if_pos hk, State.afterTransfer, ← hp]
    | prompt | look | wait | take => cases hstep

/-- The interpreter conducts its transfers. -/
theorem conducts (hl : tape.length = p.tapeLength) (d : Device byteStream σ) (w : σ) :
    Conducts p (step p) (view p) (Reached (step p) d (start tape) w) where
  opening s hs hp := by
    obtain ⟨n, w', hn⟩ := hs
    have hphase := State.phase_of_opening hp
    have hlength := (Regular.reaches hn).length.trans hl
    have hstep : step p s = .ask .canPeek (opened p s) := by
      simp only [step, hphase, hlength, ne_eq, not_true_eq_false, if_false]
    refine ⟨State.call?_of_phase (by simp [hphase]), _, hstep, ?_⟩
    intro canPeek
    unfold opened
    split
    · exact .inr ⟨_, rfl⟩
    · exact .inl rfl
  working s canPeek _ hp := by
    obtain ⟨hphase, rfl⟩ := State.phase_of_working hp
    exact works_of_running hphase
  calling s canPeek call t _ hp := by
    obtain ⟨hphase, rfl, rfl⟩ := State.phase_of_calling hp
    refine ⟨State.call?_of_phase (by simp [hphase]), _, step_transferring hphase, ?_⟩
    intro reply
    exact seen_afterTransfer p s reply
  decided s verdict _ hp := by
    have hphase := State.phase_of_decided hp
    have hstep : step p s = .halt ⟨verdict, s.tape⟩ := by simp only [step, hphase]
    exact ⟨State.call?_of_phase (by simp [hphase]), .inr ⟨_, hstep, rfl⟩⟩
  failed s canPeek call t resume reply e _ hp ha he τ d w := by
    obtain ⟨hphase, rfl, rfl⟩ := State.phase_of_calling hp
    cases (step_transferring hphase).symm.trans ha
    rw [Transfer.resume_call] at he
    simp only [he]
    exact ends_of_reaches (.refl _ w) rfl
  reads s canPeek position t hs hp := by
    obtain ⟨n, w', hn⟩ := hs
    obtain ⟨hphase, -, hcall⟩ := State.phase_of_calling hp
    obtain ⟨hread, hposition⟩ := Transfer.isRead_of_call hcall.symm
    obtain ⟨q, hhere⟩ := ((Regular.reaches hn).transfer t hphase).here
    rw [Transfer.op, if_pos hread] at hhere
    rw [Program.position?, hhere] at hposition
    cases hposition
    exact hhere
  kind s canPeek call t _ hp hread := by
    obtain ⟨-, -, rfl⟩ := State.phase_of_calling hp
    exact ⟨_, Transfer.call_eq_read hread _⟩
  retries s byte resume f _ ha hk := eq_of_interrupted ha hk

end Interpreter

end TapeLang
