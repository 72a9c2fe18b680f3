import TapeLang.Proofs.Tree.Simulation

/-!
# What streams see of a run

The events of a run, told by the instructions that read and write. A read flushes the output, looks
until there is something if it can look, and takes one byte. A write puts its byte until it is
taken.

* `Call`: what is executed of a program as far as the streams are concerned.
* `Whole`, `Begun`, `Failed`: the events of an instruction that is done, is not done yet, or fails.
* `Session`: the events of a run.
* `Upto.after`: how the stages of a transfer go through the events of an instruction.
* `Session.prompted`, `Session.flushed`: when the input is looked at or read, and at a good end, all
  output has been flushed.
-/

namespace TapeLang

/-- An instruction that uses the streams, as it is executed: a read at a position of the source, or
a write of a cell. -/
inductive Call where
  | read (position : Option Position)
  | write (cell : UInt8)

/-- A position for the error at the end of the input, which only a read can meet. -/
def Call.position : Call → Option Position
  | read position => position
  | write _ => none

/-- The first stage of its transfer. -/
def Call.first : Call → Transfer
  | read _ => .prompt
  | write cell => .offer cell

/-- What is executed at `index`, if it uses the streams. -/
def Program.call? (p : Program) (index : Nat) (tape : Tape) : Option Call :=
  match p.instructions[index]? with
  | some ⟨.read, position⟩ => some (.read position)
  | some ⟨.write, _⟩ => some (.write tape.get)
  | _ => none

namespace Program

variable {p : Program} {index : Nat} {position : Option Position}

theorem call?_of_read (h : p.instructions[index]? = some ⟨.read, position⟩) (tape : Tape) :
    p.call? index tape = some (.read position) := by
  rw [call?, h]

theorem call?_of_write (h : p.instructions[index]? = some ⟨.write, position⟩) (tape : Tape) :
    p.call? index tape = some (.write tape.get) := by
  rw [call?, h]

theorem call?_eq_none {op : Op} (h : p.instructions[index]? = some ⟨op, position⟩)
    (hr : op ≠ .read) (hw : op ≠ .write) (tape : Tape) : p.call? index tape = none := by
  rw [call?, h]
  cases op with
  | read => exact absurd rfl hr
  | write => exact absurd rfl hw
  | move | add | reset | loopStart | loopEnd => rfl

end Program

/-! ## The events of an instruction -/

section Calls

variable (canPeek : Bool)

/-- Looks that find nothing, each with a pause behind it. -/
def waits : Nat → List (Event byteStream)
  | 0 => []
  | n + 1 => waits n ++ [⟨.peek, .ok .pending⟩, ⟨.pause, ()⟩]

/-- Offers of a byte that are interrupted. -/
def interruptions (cell : UInt8) (failures : List Failure) : List (Event byteStream) :=
  failures.map fun f => ⟨.put cell, .error f⟩

/-- All looks of a read: none if the input cannot be looked at, else only the last finds something,
be it the end. -/
inductive Looks : List (Event byteStream) → Prop
  | blind : canPeek = false → Looks []
  | found (n : Nat) {a : Availability} : canPeek = true → a ≠ .pending →
    Looks (waits n ++ [⟨.peek, .ok a⟩])

/-- The events of an instruction that is done. -/
inductive Whole : Call → List (Event byteStream) → Prop
  | read {position : Option Position} {looks : List (Event byteStream)} {byte : UInt8} :
    Looks canPeek looks →
    Whole (.read position) (⟨.flush, .ok ()⟩ :: (looks ++ [⟨.next, .ok (some byte)⟩]))
  | write {cell : UInt8} {failures : List Failure} : (∀ f ∈ failures, f.kind = .interrupted) →
    Whole (.write cell) (interruptions cell failures ++ [⟨.put cell, .ok true⟩])

/-- The events of an instruction that is not done yet. -/
def Begun (call : Call) (part : List (Event byteStream)) : Prop :=
  ∃ rest, rest ≠ [] ∧ Whole canPeek call (part ++ rest)

/-- The events of an instruction that fails: it is the last of them that does. -/
inductive Failed : Call → List (Event byteStream) → RunError → Prop
  | flush {position : Option Position} {f : Failure} :
    Failed (.read position) [⟨.flush, .error f⟩] (.stream f)
  | look {position : Option Position} {f : Failure} (n : Nat) : canPeek = true →
    Failed (.read position) (⟨.flush, .ok ()⟩ :: (waits n ++ [⟨.peek, .error f⟩])) (.stream f)
  | next {position : Option Position} {looks : List (Event byteStream)} {f : Failure} :
    Looks canPeek looks →
    Failed (.read position) (⟨.flush, .ok ()⟩ :: (looks ++ [⟨.next, .error f⟩])) (.stream f)
  | exhausted {position : Option Position} {looks : List (Event byteStream)} :
    Looks canPeek looks →
    Failed (.read position) (⟨.flush, .ok ()⟩ :: (looks ++ [⟨.next, .ok none⟩]))
      (.inputExhausted position)
  | put {cell : UInt8} {failures : List Failure} {f : Failure} :
    (∀ f ∈ failures, f.kind = .interrupted) → f.kind ≠ .interrupted →
    Failed (.write cell) (interruptions cell failures ++ [⟨.put cell, .error f⟩]) (.stream f)
  | refused {cell : UInt8} {failures : List Failure} : (∀ f ∈ failures, f.kind = .interrupted) →
    Failed (.write cell) (interruptions cell failures ++ [⟨.put cell, .ok false⟩])
      (.stream .nothingWritten)

/-- The events of instructions that are done, one after the other. -/
inductive Calls : List Call → List (Event byteStream) → Prop
  | nil : Calls [] []
  | concat {calls : List Call} {call : Call} {log part : List (Event byteStream)} :
    Calls calls log → Whole canPeek call part → Calls (calls ++ [call]) (log ++ part)

end Calls

/-! ## The events of a run -/

/-- The events `log` of a run that has executed the instructions `calls`, and how it ends if that is
already decided. It asks once whether the input can be looked at, and if it comes to its end flushes
once more. -/
inductive Session : List Call → List (Event byteStream) → Option Verdict → Prop
  | unopened : Session [] [] none
  | between {canPeek : Bool} {calls : List Call} {log : List (Event byteStream)} :
    Calls canPeek calls log → Session calls (⟨.canPeek, canPeek⟩ :: log) none
  | begun {canPeek : Bool} {calls : List Call} {call : Call} {log part : List (Event byteStream)} :
    Calls canPeek calls log → Begun canPeek call part →
    Session (calls ++ [call]) (⟨.canPeek, canPeek⟩ :: (log ++ part)) none
  | failed {canPeek : Bool} {calls : List Call} {call : Call} {log part : List (Event byteStream)}
    {e : RunError} : Calls canPeek calls log → Failed canPeek call part e →
    Session (calls ++ [call]) (⟨.canPeek, canPeek⟩ :: (log ++ part)) (some (.failed e))
  | finished {canPeek : Bool} {calls : List Call} {log : List (Event byteStream)} :
    Calls canPeek calls log →
    Session calls (⟨.canPeek, canPeek⟩ :: (log ++ [⟨.flush, .ok ()⟩])) (some .finished)
  | unflushed {canPeek : Bool} {calls : List Call} {log : List (Event byteStream)} {f : Failure} :
    Calls canPeek calls log →
    Session calls (⟨.canPeek, canPeek⟩ :: (log ++ [⟨.flush, .error f⟩]))
      (some (.failed (.stream f)))
  /-- Before its first instruction. -/
  | crashed {canPeek : Bool} {c : Crash} : Session [] [⟨.canPeek, canPeek⟩] (some (.crashed c))

/-! ## Stages -/

/-- The events of an instruction whose transfer has got to a stage. -/
inductive Upto (canPeek : Bool) : Call → Transfer → List (Event byteStream) → Prop
  | prompt {position : Option Position} : Upto canPeek (.read position) .prompt []
  | look {position : Option Position} (n : Nat) : canPeek = true →
    Upto canPeek (.read position) .look (⟨.flush, .ok ()⟩ :: waits n)
  | wait {position : Option Position} (n : Nat) : canPeek = true →
    Upto canPeek (.read position) .wait
      (⟨.flush, .ok ()⟩ :: (waits n ++ [⟨.peek, .ok .pending⟩]))
  | take {position : Option Position} {looks : List (Event byteStream)} : Looks canPeek looks →
    Upto canPeek (.read position) .take (⟨.flush, .ok ()⟩ :: looks)
  | offer {cell : UInt8} {failures : List Failure} : (∀ f ∈ failures, f.kind = .interrupted) →
    Upto canPeek (.write cell) (.offer cell) (interruptions cell failures)

namespace Upto

variable {canPeek : Bool} {call : Call} {t : Transfer} {part : List (Event byteStream)}

theorem first (canPeek : Bool) (call : Call) : Upto canPeek call call.first [] := by
  cases call with
  | read position => exact .prompt
  | write cell => exact @offer canPeek cell [] nofun

/-- Something is still missing. -/
theorem begun (h : Upto canPeek call t part) : Begun canPeek call part := by
  cases h with
  | @prompt position =>
    obtain ⟨looks, hlooks⟩ : ∃ looks, Looks canPeek looks := by
      cases canPeek with
      | false => exact ⟨_, .blind rfl⟩
      | true => exact ⟨_, .found 0 (a := .ready) rfl nofun⟩
    exact ⟨_, List.cons_ne_nil _ _, @Whole.read canPeek _ _ 0 hlooks⟩
  | @look position n hc =>
    have hwhole := @Whole.read canPeek position _ 0 (.found n (a := .ready) hc nofun)
    rw [List.append_assoc, ← List.cons_append] at hwhole
    exact ⟨_, List.cons_ne_nil _ _, hwhole⟩
  | @wait position n hc =>
    have hwhole := @Whole.read canPeek position _ 0 (.found (n + 1) (a := .ready) hc nofun)
    refine ⟨[⟨.pause, ()⟩, ⟨.peek, .ok .ready⟩, ⟨.next, .ok (some 0)⟩], List.cons_ne_nil _ _, ?_⟩
    simpa [waits] using hwhole
  | take hlooks => exact ⟨_, List.cons_ne_nil _ _, @Whole.read canPeek _ _ 0 hlooks⟩
  | offer hf => exact ⟨_, List.cons_ne_nil _ _, .write hf⟩

/-- With each reply the transfer gets to the next stage, is done or fails. -/
theorem after (h : Upto canPeek call t part) (reply : t.request.Reply) :
    match t.resume canPeek call.position reply with
    | .stage t' => Upto canPeek call t' (part ++ [⟨t.request, reply⟩])
    | .done (.failed e) => Failed canPeek call (part ++ [⟨t.request, reply⟩]) e
    | .done _ => Whole canPeek call (part ++ [⟨t.request, reply⟩]) := by
  cases h with
  | prompt =>
    cases reply with
    | error f => exact .flush
    | ok =>
      cases canPeek with
      | false => exact .take (.blind rfl)
      | true => exact .look 0 rfl
  | look n hc =>
    cases reply with
    | error f => exact .look n hc
    | ok a =>
      cases a with
      | ready => exact .take (.found n hc nofun)
      | pending => exact .wait n hc
      | closed => exact .take (.found n hc nofun)
  | @wait position n hc =>
    have hlook := @look canPeek position (n + 1) hc
    rw [List.cons_append, List.append_assoc]
    exact hlook
  | take hlooks =>
    cases reply with
    | error f => exact .next hlooks
    | ok byte =>
      cases byte with
      | none => exact .exhausted hlooks
      | some byte => exact .read hlooks
  | @offer cell failures hf =>
    cases reply with
    | ok taken =>
      cases taken with
      | true => exact .write hf
      | false => exact .refused hf
    | error f =>
      by_cases hk : f.kind = .interrupted
      · have hmore : ∀ g ∈ failures ++ [f], g.kind = .interrupted := by
          intro g hg
          rcases List.mem_append.mp hg with hg | hg
          · exact hf g hg
          · rw [List.mem_singleton.mp hg, hk]
        have hoffer := @offer canPeek cell _ hmore
        rw [interruptions, List.map_append] at hoffer
        simp only [Transfer.resume, if_pos hk]
        exact hoffer
      · simp only [Transfer.resume, if_neg hk]
        exact .put hf hk

end Upto

/-! ## Flushing -/

/-- Behind each byte that was taken the output has been flushed. -/
def Flushed (log : List (Event byteStream)) : Prop :=
  ∀ before cell after, log = before ++ ⟨.put cell, .ok true⟩ :: after → ⟨.flush, .ok ()⟩ ∈ after

/-- Whenever the input was looked at or read, the output had been flushed. -/
def Prompted (log : List (Event byteStream)) : Prop :=
  ∀ before event after, log = before ++ event :: after →
    event.request = .peek ∨ event.request = .next → Flushed before

/-- These events do not use the input. -/
def Inputless (part : List (Event byteStream)) : Prop :=
  ∀ event ∈ part, ¬ (event.request = .peek ∨ event.request = .next)

/-- These events put nothing. -/
def Putless (part : List (Event byteStream)) : Prop :=
  ∀ event ∈ part, ∀ cell, event.request ≠ .put cell

section Flushing

variable {log part : List (Event byteStream)}

theorem flushed_append_flush (log : List (Event byteStream)) (h : Putless part) :
    Flushed (log ++ ⟨.flush, .ok ()⟩ :: part) := by
  intro before cell after heq
  rcases List.append_eq_append_iff.mp heq with ⟨more, rfl, hmore⟩ | ⟨more, rfl, hmore⟩
  · -- the byte would have to be among what follows the flush
    have hmem : (⟨.put cell, .ok true⟩ : Event byteStream) ∈ ⟨.flush, .ok ()⟩ :: part := by
      rw [hmore]
      exact List.mem_append_right _ (List.mem_cons_self ..)
    rcases List.mem_cons.mp hmem with hflush | hpart
    · cases hflush
    · exact absurd rfl (h _ hpart cell)
  · cases more with
    | nil => cases hmore
    | cons event more =>
      obtain ⟨-, rfl⟩ := List.cons.inj hmore
      exact List.mem_append_right _ (List.mem_cons_self ..)

theorem Prompted.of_prefix (h : Prompted log) (hp : part <+: log) : Prompted part := by
  rintro before event after rfl
  obtain ⟨rest, rfl⟩ := hp
  rw [List.append_assoc] at h
  exact h before event (after ++ rest) rfl

theorem Prompted.append_inputless (h : Prompted log) (hi : Inputless part) :
    Prompted (log ++ part) := by
  intro before event after heq hevent
  rcases List.append_eq_append_iff.mp heq with ⟨more, rfl, hmore⟩ | ⟨more, rfl, hmore⟩
  · refine absurd hevent (hi event ?_)
    rw [hmore]
    exact List.mem_append_right _ (List.mem_cons_self ..)
  · cases more with
    | nil =>
      refine absurd hevent (hi event ?_)
      rw [← List.nil_append part, ← hmore]
      exact List.mem_cons_self ..
    | cons other more =>
      obtain ⟨rfl, -⟩ := List.cons.inj hmore
      exact h before event more rfl hevent

/-- Behind a flush the input may be used until something is put. -/
theorem Prompted.append_flush (h : Prompted log) (hp : Putless part) :
    Prompted (log ++ ⟨.flush, .ok ()⟩ :: part) := by
  have hflush : Prompted (log ++ [⟨.flush, .ok ()⟩]) := by
    refine h.append_inputless ?_
    intro event hevent
    rw [List.mem_singleton.mp hevent]
    nofun
  intro before event after heq hevent
  rw [List.append_cons] at heq
  rcases List.append_eq_append_iff.mp heq with ⟨more, rfl, hmore⟩ | ⟨more, hmore, hrest⟩
  · rw [List.append_assoc]
    refine flushed_append_flush log ?_
    intro other hother
    refine hp other ?_
    rw [hmore]
    exact List.mem_append_left _ hother
  · cases more with
    | nil =>
      rw [List.append_nil] at hmore
      rw [← hmore]
      exact flushed_append_flush log nofun
    | cons other more =>
      obtain ⟨rfl, -⟩ := List.cons.inj hrest
      exact hflush before event more hmore hevent

end Flushing

/-! ## The events of parts -/

theorem request_of_mem_waits {n : Nat} {event : Event byteStream} (h : event ∈ waits n) :
    event.request = .peek ∨ event.request = .pause := by
  induction n with
  | zero => cases h
  | succ n ih =>
    rcases List.mem_append.mp h with h | h
    · exact ih h
    · rcases List.mem_cons.mp h with rfl | h
      · exact .inl rfl
      · rw [List.mem_singleton.mp h]
        exact .inr rfl

/-- A look behind looks that find nothing. -/
theorem putless_waits (n : Nat) (reply : Except Failure Availability) :
    Putless (waits n ++ [⟨.peek, reply⟩]) := by
  intro event hevent cell hput
  rcases List.mem_append.mp hevent with h | h
  · rcases request_of_mem_waits h with hr | hr <;> cases hr.symm.trans hput
  · rw [List.mem_singleton.mp h] at hput
    cases hput

theorem Looks.putless {canPeek : Bool} {looks : List (Event byteStream)} (h : Looks canPeek looks) :
    Putless looks := by
  cases h with
  | blind => nofun
  | found n => exact putless_waits n _

/-- One read behind the looks. -/
theorem Putless.next {part : List (Event byteStream)} (h : Putless part)
    (reply : Except Failure (Option UInt8)) : Putless (part ++ [⟨.next, reply⟩]) := by
  intro event hevent cell hput
  rcases List.mem_append.mp hevent with hevent | hevent
  · exact h event hevent cell hput
  · rw [List.mem_singleton.mp hevent] at hput
    cases hput

/-- One more offer behind those that were interrupted. -/
theorem inputless_interruptions (cell : UInt8) (failures : List Failure)
    (reply : Except Failure Bool) :
    Inputless (interruptions cell failures ++ [⟨.put cell, reply⟩]) := by
  intro event hevent
  rcases List.mem_append.mp hevent with h | h
  · obtain ⟨f, -, rfl⟩ := List.mem_map.mp h
    nofun
  · rw [List.mem_singleton.mp h]
    nofun

section Sessions

variable {canPeek : Bool} {call : Call} {calls : List Call} {log part : List (Event byteStream)}

theorem Prompted.whole (h : Prompted log) (hw : Whole canPeek call part) :
    Prompted (log ++ part) := by
  cases hw with
  | read hlooks => exact h.append_flush (hlooks.putless.next _)
  | write => exact h.append_inputless (inputless_interruptions _ _ _)

theorem Prompted.begun (h : Prompted log) (hb : Begun canPeek call part) :
    Prompted (log ++ part) := by
  obtain ⟨rest, -, hw⟩ := hb
  have hwhole := h.whole hw
  rw [← List.append_assoc] at hwhole
  exact hwhole.of_prefix (List.prefix_append _ _)

theorem Prompted.failed {e : RunError} (h : Prompted log) (hf : Failed canPeek call part e) :
    Prompted (log ++ part) := by
  cases hf with
  | @flush position f =>
    refine h.append_inputless ?_
    intro event hevent
    rw [List.mem_singleton.mp hevent]
    nofun
  | look n => exact h.append_flush (putless_waits n _)
  | next hlooks => exact h.append_flush (hlooks.putless.next _)
  | exhausted hlooks => exact h.append_flush (hlooks.putless.next _)
  | put => exact h.append_inputless (inputless_interruptions _ _ _)
  | refused => exact h.append_inputless (inputless_interruptions _ _ _)

theorem prompted_nil : Prompted [] := by
  intro before event after heq
  cases before <;> cases heq

/-- The question whether the input can be looked at does not use it. -/
theorem prompted_opened (canPeek : Bool) : Prompted [⟨.canPeek, canPeek⟩] := by
  refine @Prompted.append_inputless _ [⟨.canPeek, canPeek⟩] prompted_nil ?_
  intro event hevent
  rw [List.mem_singleton.mp hevent]
  nofun

theorem Calls.prompted (h : Calls canPeek calls log) :
    Prompted (⟨.canPeek, canPeek⟩ :: log) := by
  induction h with
  | nil => exact prompted_opened canPeek
  | concat _ hw ih => exact ih.whole hw

/-- When the input is looked at or read, all output has been flushed. -/
theorem Session.prompted {verdict : Option Verdict} (h : Session calls log verdict) :
    Prompted log := by
  cases h with
  | unopened => exact prompted_nil
  | between hc => exact hc.prompted
  | begun hc hb => exact hc.prompted.begun hb
  | failed hc hf => exact hc.prompted.failed hf
  | finished hc => exact @Prompted.append_flush _ [] hc.prompted nofun
  | @unflushed canPeek _ log f hc =>
    refine @Prompted.append_inputless _ [⟨.flush, .error f⟩] hc.prompted ?_
    intro event hevent
    rw [List.mem_singleton.mp hevent]
    nofun
  | crashed => exact prompted_opened _

/-- At a good end all output has been flushed. -/
theorem Session.flushed (h : Session calls log (some .finished)) : Flushed log := by
  cases h with
  | @finished canPeek _ log hc =>
    exact @flushed_append_flush [] (⟨.canPeek, canPeek⟩ :: log) nofun

end Sessions

end TapeLang
