import TapeLang.Proofs.Tree.Interpreter

/-!
# States of the interpreter

What holds of every state a run of the interpreter gets to: once it has begun, its tape has the
length the program is for, and in the middle of a transfer it stands at the instruction that the
transfer is for.

* `State.perform`: what a command does that is not skipped.
* `Regular`: what holds.
* `Regular.reaches`: it holds throughout a run.
-/

namespace TapeLang

/-- A byte that has to be offered again is the same byte. -/
theorem Transfer.eq_of_resume_offer {byte : UInt8} {t : Transfer} {canPeek : Bool}
    {position : Option Position} {reply : (Transfer.offer byte).request.Reply}
    (h : (Transfer.offer byte).resume canPeek position reply = .stage t) : t = .offer byte := by
  cases reply with
  | ok taken => cases taken <;> cases h
  | error f =>
    rw [Transfer.resume] at h
    split at h
    · exact (Next.stage.inj h).symm
    · cases h

/-- A transfer goes on as one of the same kind. -/
theorem Transfer.stage_of_resume {t t' : Transfer} {canPeek : Bool} {position : Option Position}
    {reply : t.request.Reply} (h : t.resume canPeek position reply = .stage t') :
    t'.isRead = t.isRead ∧ ∀ byte, t' = .offer byte → t = .offer byte := by
  have hread : t'.isRead = t.isRead := by
    have hfits := t.fits_resume canPeek position reply
    rw [h] at hfits
    exact hfits
  refine ⟨hread, ?_⟩
  rintro byte rfl
  cases t with
  | offer other => exact (eq_of_resume_offer h).symm
  | prompt | look | wait | take => cases hread

/-- The operation that a transfer is for. -/
def Transfer.op (t : Transfer) : Op := if t.isRead then .read else .write

theorem Op.bracket_or_command (op : Op) :
    op = .loopStart ∨ op = .loopEnd ∨ ∃ c : Command, c.op = op := by
  cases op with
  | loopStart => exact .inl rfl
  | loopEnd => exact .inr (.inl rfl)
  | move n => exact .inr (.inr ⟨.move n, rfl⟩)
  | add n => exact .inr (.inr ⟨.add n, rfl⟩)
  | reset => exact .inr (.inr ⟨.reset, rfl⟩)
  | read => exact .inr (.inr ⟨.read, rfl⟩)
  | write => exact .inr (.inr ⟨.write, rfl⟩)

namespace Interpreter

variable {σ : Type} {p : Program} {s s' : State}

/-! ## One instruction -/

/-- What a command does that is not skipped. -/
def State.perform (s : State) : Command → State
  | .move n => s.move n
  | .add n => s.add n
  | .reset => s.reset
  | .read => { s with phase := .transferring .prompt }
  | .write => { s with phase := .transferring (.offer s.tape.get) }

theorem State.execute_of_running (h : s.skip = 0) (c : Command) : s.execute c.op = s.perform c := by
  cases c <;> exact if_neg (fun hne => hne h)

theorem State.length_perform (s : State) (c : Command) :
    (s.perform c).tape.length = s.tape.length := by
  cases c with
  | move n => exact congrArg Cells.size (s.tape.cells_advance n)
  | add n | reset | read | write => rfl

theorem State.length_execute (s : State) (op : Op) :
    (s.execute op).tape.length = s.tape.length := by
  rcases op.bracket_or_command with rfl | rfl | ⟨c, rfl⟩
  · rfl
  · rw [execute_loopEnd, closeLoop]
    split <;> rfl
  · by_cases hs : s.skip = 0
    · rw [execute_of_running hs, length_perform]
    · rw [execute_of_skip hs]
      rfl

/-- A transfer begins only at an instruction that is not skipped, and writes the current cell. -/
theorem State.transferring_of_execute {op : Op} {t : Transfer} (hp : s.phase = .running)
    (h : (s.execute op).phase = .transferring t) :
    s.skip = 0 ∧ op = t.op ∧ (s.execute op).cursor = s.cursor ∧ (s.execute op).skip = 0 ∧
      ∀ byte, t = .offer byte → byte = (s.execute op).tape.get := by
  rcases op.bracket_or_command with rfl | rfl | ⟨c, rfl⟩
  · cases hp.symm.trans h
  · rw [execute_loopEnd, closeLoop] at h
    split at h <;> cases hp.symm.trans h
  · by_cases hs : s.skip = 0
    · rw [execute_of_running hs] at h ⊢
      cases c with
      | move n | add n | reset => cases hp.symm.trans h
      | read =>
        cases h
        refine ⟨hs, rfl, rfl, hs, ?_⟩
        intro byte hbyte
        cases hbyte
      | write =>
        cases h
        refine ⟨hs, rfl, rfl, hs, ?_⟩
        intro byte hbyte
        exact (Transfer.offer.inj hbyte).symm
    · rw [execute_of_skip hs] at h
      cases hp.symm.trans h

/-! ## Regular states -/

/-- The interpreter is in the middle of a transfer for the instruction it stands at. -/
structure Transferring (p : Program) (s : State) (t : Transfer) : Prop where
  unskipped : s.skip = 0
  here : ∃ position, p.instructions[s.cursor]? = some ⟨t.op, position⟩
  cell : ∀ byte, t = .offer byte → byte = s.tape.get

/-- A state of a run on `tape`. -/
structure Regular (p : Program) (tape : Tape) (s : State) : Prop where
  length : s.tape.length = tape.length
  fits : s.phase = .opening ∨ tape.length = p.tapeLength
  transfer : ∀ t, s.phase = .transferring t → Transferring p s t

namespace Regular

variable {tape : Tape}

theorem start (p : Program) (tape : Tape) : Regular p tape (start tape) := ⟨rfl, .inl rfl, nofun⟩

theorem next (h : Regular p tape s) (hs : step p s = .next s') : Regular p tape s' := by
  unfold step at hs
  split at hs
  case h_1 => split at hs <;> cases hs
  case h_2 hp =>
    split at hs
    case h_1 i hi =>
      cases hs
      have hfits := h.fits.resolve_left (by simp [hp])
      refine ⟨(s.length_execute i.op).trans h.length, .inr hfits, ?_⟩
      intro t ht
      obtain ⟨-, hop, hcursor, hskip, hcell⟩ := State.transferring_of_execute hp ht
      exact ⟨hskip, ⟨i.position, by rw [hcursor, hi, ← hop]⟩, hcell⟩
    case h_2 => cases hs
  case h_3 => cases hs
  case h_4 => cases hs

theorem opened (h : s.tape.length = tape.length) (hl : tape.length = p.tapeLength)
    (canPeek : Bool) : Regular p tape (opened p s canPeek) := by
  unfold Interpreter.opened
  split
  · exact ⟨h, .inr hl, nofun⟩
  · exact ⟨h, .inr hl, nofun⟩

theorem finished (h : s.tape.length = tape.length) (hl : tape.length = p.tapeLength)
    (reply : Except Failure Unit) : Regular p tape (finished s reply) := by
  cases reply with
  | ok => exact ⟨h, .inr hl, nofun⟩
  | error f => exact ⟨h, .inr hl, nofun⟩

theorem afterTransfer (h : Regular p tape s) {t : Transfer} (ht : s.phase = .transferring t)
    (position : Option Position) (reply : t.request.Reply) :
    Regular p tape (s.afterTransfer (t.resume s.canPeek position reply)) := by
  have hl := h.fits.resolve_left (by simp [ht])
  cases hr : t.resume s.canPeek position reply with
  | stage t' =>
    obtain ⟨hread, hoffer⟩ := Transfer.stage_of_resume hr
    obtain ⟨hskip, hhere, hcell⟩ := h.transfer t ht
    refine ⟨h.length, .inr hl, ?_⟩
    intro u hu
    cases hu
    refine ⟨hskip, ?_, ?_⟩
    · rw [Transfer.op, hread]
      exact hhere
    · intro byte hbyte
      exact hcell byte (hoffer byte hbyte)
  | done outcome =>
    cases outcome with
    | received byte => exact ⟨h.length, .inr hl, nofun⟩
    | sent => exact ⟨h.length, .inr hl, nofun⟩
    | failed e => exact ⟨h.length, .inr hl, nofun⟩

theorem ask (h : Regular p tape s) {request : ByteRequest} {resume : request.Reply → State}
    (hs : step p s = .ask request resume) (reply : request.Reply) :
    Regular p tape (resume reply) := by
  unfold step at hs
  split at hs
  case h_1 =>
    split at hs
    case isTrue => cases hs
    case isFalse hl =>
      cases hs
      exact opened h.length (h.length.symm.trans (Decidable.not_not.mp hl)) reply
  case h_2 hp =>
    split at hs
    case h_1 => cases hs
    case h_2 =>
      cases hs
      exact finished h.length (h.fits.resolve_left (by simp [hp])) reply
  case h_3 t ht =>
    cases hs
    exact h.afterTransfer ht _ reply
  case h_4 => cases hs

/-- Every state of a run is regular. -/
theorem reaches {d : Device byteStream σ} {n : Nat} {w w' : σ}
    (h : Reaches (step p) d n (Interpreter.start tape) w s w') : Regular p tape s :=
  h.keeps (fun _ _ hs hn => hs.next hn) (fun _ _ _ reply hs ha => hs.ask ha reply) (start p tape)

end Regular

end Interpreter

end TapeLang
