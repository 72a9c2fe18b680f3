import TapeLang.Proofs.Native.System
import TapeLang.Proofs.Tree.Surroundings

/-!
# A system and bytes in memory

A tree does the same beside a system as beside a byte string and an output that takes everything,
as long as no system call of a read or a write fails. If one fails the tree is stopped there, with as
much output as there was.

* `Sees`: the input and the output of a system are those in memory, and nothing has failed.
* `Mirrors`: what becomes of a tree in both.
* `mirrors_exec`: every tree is mirrored.
-/

namespace TapeLang.Job

open Native

variable {σ : Type}

/-! ## Failures -/

/-- A read or a write that fails. -/
def IsFault : Event system → Prop
  | ⟨.read _ _, .error _⟩ => True
  | ⟨.write _ _, .error _⟩ => True
  | _ => False

def Faulty (events : Array (Event system)) : Prop := ∃ e ∈ events, IsFault e

theorem faulty_push (events : Array (Event system)) (e : Event system) :
    Faulty (events.push e) ↔ Faulty events ∨ IsFault e := by
  simp [Faulty, Array.mem_push, or_and_right, exists_or]

theorem Faulty.mono {events events' : Array (Event system)} (h : Faulty events)
    (hp : events.toList <+: events'.toList) : Faulty events' := by
  obtain ⟨e, he, hf⟩ := h
  exact ⟨e, Array.mem_toList_iff.mp (hp.subset (Array.mem_toList_iff.mpr he)), hf⟩

/-! ## Bytes in memory -/

/-- An input that is read from memory and an output that is kept there. -/
abbrev Bytes := Cursor × Array UInt8

/-- What has not been read. -/
def Bytes.unread (v : Bytes) : List UInt8 := v.1.unread.toList

/-- What has been written. -/
def Bytes.written (v : Bytes) : List UInt8 := v.2.toList

def inMemory : Device byteStream Bytes := Cursor.source.beside collecting

theorem prefix_written (request : ByteRequest) (v : Bytes) :
    v.written <+: (inMemory request v).2.written := by
  cases request with
  | put byte =>
    show v.2.toList <+: (v.2.push byte).toList
    rw [Array.toList_push]
    exact List.prefix_append _ _
  | canPeek | peek | next | flush | pause => exact List.prefix_rfl

/-- The next byte, if there is one, is the first unread. -/
theorem Bytes.next_eq (v : Bytes) : v.1.next.1 = v.unread.head? ∧
    Bytes.unread (v.1.next.2, v.2) = v.unread.drop 1 := by
  simp only [unread, Cursor.toList_unread, Cursor.next]
  split
  next byte h => simp [h]
  next h =>
    have : v.1.bytes.toList.drop v.1.index = [] := by simpa using h
    simp [this]

/-! ## Output that stays -/

/-- The surroundings behind a passage. -/
def world : Passage σ → σ
  | .through _ w => w
  | .stopped _ _ w => w
  | .unfinished w => w

theorem leaves_iff {P : σ → Prop} {p : Passage σ} : p.Leaves P ↔ P (world p) := by
  cases p <;> rfl

section Written

variable {v : Bytes} {canPeek : Bool} {bound : Nat} {position : Option Position} {tape : Tape}

/-- What has been written stays at the front of it. -/
theorem prefix_request (before : List UInt8) (request : ByteRequest) (v : Bytes)
    (h : before <+: v.written) : before <+: (inMemory request v).2.written :=
  h.trans (prefix_written request v)

theorem prefix_andThen {before : List UInt8} {p : Passage Bytes}
    {next : Tape → Bytes → Passage Bytes} (hp : before <+: (world p).written)
    (hn : ∀ tape v, v.written <+: (world (next tape v)).written) :
    before <+: (world (p.andThen next)).written := by
  have hleaves : p.Leaves fun v => before <+: v.written := leaves_iff.mpr hp
  exact leaves_iff.mp (hleaves.andThen fun tape v hv => leaves_iff.mpr (hv.trans (hn tape v)))

theorem prefix_perform (t : Transfer) :
    v.written <+: (world (t.perform inMemory canPeek bound position tape v)).written :=
  leaves_iff.mp (Transfer.leaves_perform (prefix_request v.written) position t tape List.prefix_rfl)

theorem prefix_whileNonzero {body : Tape → Bytes → Passage Bytes}
    (hb : ∀ tape v, v.written <+: (world (body tape v)).written) (tape : Tape) (v : Bytes) :
    v.written <+: (world (whileNonzero body bound tape v)).written := by
  have hkeep (tape : Tape) (v' : Bytes) (hv : v.written <+: v'.written) :
      (body tape v').Leaves fun v' => v.written <+: v'.written :=
    leaves_iff.mpr (hv.trans (hb tape v'))
  exact leaves_iff.mp (leaves_whileNonzero hkeep bound tape List.prefix_rfl)

/-- What a tree has written, it does not take back. -/
theorem prefix_exec (t : Tree) (tape : Tape) (v : Bytes) :
    v.written <+: (world (t.exec inMemory canPeek bound tape v)).written :=
  leaves_iff.mp (t.leaves_exec (prefix_request v.written) tape List.prefix_rfl)

end Written

/-! ## One tree in both -/

section Mirrors

variable (d : Device system σ) (input output : σ → List UInt8)

/-- The system has the input and the output that are in memory, and no transfer has failed. -/
structure Sees (w : σ × Array (Event system)) (v : Bytes) : Prop where
  input : input w.1 = v.unread
  output : output w.1 = v.written
  sound : ¬ Faulty w.2

/-- What becomes of a tree beside a system and of the same tree beside bytes in memory. -/
inductive Mirrors : Passage (σ × Array (Event system)) → Passage Bytes → Prop where
  | through {tape w v} (h : Sees input output w v) : Mirrors (.through tape w) (.through tape v)
  | exhausted {position tape w v} (h : Sees input output w v) :
    Mirrors (.stopped (.inputExhausted position) tape w)
      (.stopped (.inputExhausted position) tape v)
  | unfinished {w v} (h : Sees input output w v) : Mirrors (.unfinished w) (.unfinished v)
  /-- Only the system has stopped the tree. -/
  | faulty {e tape w q} (hr : ¬ Reliable d) (hf : Faulty w.2)
    (ho : output w.1 <+: (world q).written) : Mirrors (.stopped e tape w) q

variable {d input output}

theorem Sees.push {w : σ × Array (Event system)} {v v' : Bytes} {e : Event system} {w' : σ}
    (h : Sees input output w v) (he : ¬ IsFault e) (hi : input w' = v'.unread)
    (ho : output w' = v'.written) : Sees input output (w', w.2.push e) v' where
  input := hi
  output := ho
  sound hf := ((faulty_push ..).mp hf).elim h.sound he

theorem Mirrors.andThen {p : Passage (σ × Array (Event system))} {q : Passage Bytes}
    {f : Tape → σ × Array (Event system) → Passage (σ × Array (Event system))}
    {g : Tape → Bytes → Passage Bytes} (h : Mirrors d input output p q)
    (hfg : ∀ tape w v, Sees input output w v → Mirrors d input output (f tape w) (g tape v))
    (hg : ∀ tape v, v.written <+: (world (g tape v)).written) :
    Mirrors d input output (p.andThen f) (q.andThen g) := by
  cases h with
  | through h => exact hfg _ _ _ h
  | exhausted h => exact .exhausted h
  | unfinished h => exact .unfinished h
  | faulty hr hf ho => exact .faulty hr hf (prefix_andThen ho hg)

theorem Mirrors.output_le {p : Passage (σ × Array (Event system))} {q : Passage Bytes}
    (h : Mirrors d input output p q) : output (world p).1 <+: (world q).written := by
  cases h with
  | through h | exhausted h | unfinished h => exact h.output ▸ List.prefix_rfl
  | faulty hr hf ho => exact ho

theorem Mirrors.output_eq {p : Passage (σ × Array (Event system))} {q : Passage Bytes}
    (h : Mirrors d input output p q) (hp : ¬ Faulty (world p).2) :
    output (world p).1 = (world q).written := by
  cases h with
  | through h | exhausted h | unfinished h => exact h.output
  | faulty hr hf ho => exact absurd hf hp

theorem Mirrors.not_faulty {p : Passage (σ × Array (Event system))} {q : Passage Bytes}
    (h : Mirrors d input output p q) (hd : Reliable d) : ¬ Faulty (world p).2 := by
  cases h with
  | through h | exhausted h | unfinished h => exact h.sound
  | faulty hr hf ho => exact absurd hd hr

/-- What a read leaves that gets `byte`, if there is one. -/
def received {τ : Type} (position : Option Position) (tape : Tape) : Option UInt8 → τ → Passage τ
  | some byte, w => .through (tape.set byte) w
  | none, w => .stopped (.inputExhausted position) tape w

theorem perform_read (position : Option Position) (tape : Tape) (v : Bytes) (bound : Nat) :
    Transfer.prompt.perform inMemory true (bound + 4) position tape v =
      received position tape v.1.next.1 (v.1.next.2, v.2) := by
  have hlook : Transfer.prompt.perform inMemory true (bound + 4) position tape v =
      Transfer.take.perform inMemory true (bound + 2) position tape v := by
    by_cases hi : v.1.index < v.1.bytes.size <;>
    simp [Transfer.perform, run, Transfer.Next.step, Transfer.resume, Transfer.reading, inMemory,
      Source.beside, Cursor.source, Cursor.peek, collecting, hi]
  rw [hlook]
  cases hn : v.1.next.1 <;>
  simp [Transfer.perform, run, Transfer.Next.step, Transfer.resume, inMemory, Source.beside,
    Cursor.source, Passage.ofTransfer, received, hn]

variable (hd : Documented d input output)
  {w : σ × Array (Event system)} {v : Bytes} {position : Option Position} {tape : Tape}
include hd

theorem mirrors_read (h : Sees input output w v) (bound : Nat) :
    Mirrors d input output
      (Transfer.prompt.perform (streams d.logged) false (bound + 4) position tape w)
      (Transfer.prompt.perform inMemory true (bound + 4) position tape v) := by
  have houtput : output (d (.read 0 1) w.1).2 = v.written := (hd.read_output w.1).trans h.output
  cases hreply : d (.read 0 1) w.1 with
  | mk reply w' =>
    rw [hreply] at houtput
    cases reply with
    | error n =>
      have hstopped : Transfer.prompt.perform (streams d.logged) false (bound + 4) position tape w =
          .stopped (.stream fault) tape (w', w.2.push ⟨.read 0 1, .error n⟩) := by
        simp [Transfer.perform, run, Transfer.Next.step, Transfer.resume, Transfer.reading, streams,
          Device.logged, hreply, Passage.ofTransfer]
      rw [hstopped]
      refine .faulty (fun hr => (hr w.1 n).1 (by rw [hreply]))
        ((faulty_push ..).mpr (.inr trivial)) ?_
      rw [houtput]
      exact prefix_perform _
    | ok taken =>
      obtain ⟨htaken, hinput⟩ := hd.read_ok w.1 taken (by rw [hreply])
      rw [hreply, h.input] at hinput
      have hsystem : Transfer.prompt.perform (streams d.logged) false (bound + 4) position tape w =
          received position tape taken.head? (w', w.2.push ⟨.read 0 1, .ok taken⟩) := by
        cases hhead : taken.head? <;>
        simp [Transfer.perform, run, Transfer.Next.step, Transfer.resume, Transfer.reading, streams,
          Device.logged, hreply, Passage.ofTransfer, received, hhead]
      have hhead : taken.head? = v.unread.head? := by
        rw [htaken, h.input]
        cases v.unread <;> rfl
      have hsees : Sees input output (w', w.2.push ⟨.read 0 1, .ok taken⟩)
          (v.1.next.2, v.2) :=
        h.push not_false (hinput.trans v.next_eq.2.symm) houtput
      rw [hsystem, perform_read, hhead, v.next_eq.1]
      cases v.unread.head? with
      | some byte => exact .through hsees
      | none => exact .exhausted hsees

theorem mirrors_write (h : Sees input output w v) (byte : UInt8) (bound : Nat) :
    Mirrors d input output
      ((Transfer.offer byte).perform (streams d.logged) false (bound + 4) position tape w)
      ((Transfer.offer byte).perform inMemory true (bound + 4) position tape v) := by
  have hsent : (Transfer.offer byte).perform inMemory true (bound + 4) position tape v =
      .through tape (v.1, v.2.push byte) := rfl
  rw [hsent]
  cases hreply : d (.write 1 [byte]) w.1 with
  | mk reply w' =>
    cases reply with
    | error n =>
      obtain ⟨-, houtput⟩ := hd.write_error byte w.1 n (by rw [hreply])
      rw [hreply, h.output] at houtput
      have hstopped : (Transfer.offer byte).perform (streams d.logged) false (bound + 4) position
          tape w = .stopped (.stream fault) tape (w', w.2.push ⟨.write 1 [byte], .error n⟩) := by
        simp [Transfer.perform, run, Transfer.Next.step, Transfer.resume, streams, Device.logged,
          hreply, Passage.ofTransfer, fault]
      rw [hstopped]
      refine .faulty (fun hr => (hr w.1 n).2 byte (by rw [hreply]))
        ((faulty_push ..).mpr (.inr trivial)) ?_
      rw [houtput]
      exact prefix_written (.put byte) v
    | ok count =>
      obtain ⟨-, houtput, hinput⟩ := hd.write_ok byte w.1 count (by rw [hreply])
      rw [hreply] at houtput hinput
      have hthrough : (Transfer.offer byte).perform (streams d.logged) false (bound + 4) position
          tape w = .through tape (w', w.2.push ⟨.write 1 [byte], .ok count⟩) := by
        simp [Transfer.perform, run, Transfer.Next.step, Transfer.resume, streams, Device.logged,
          hreply, Passage.ofTransfer]
      rw [hthrough]
      refine .through (h.push not_false (hinput.trans h.input) ?_)
      rw [houtput, h.output, Bytes.written, Bytes.written, Array.toList_push]

theorem mirrors_command (c : Command) (h : Sees input output w v) (bound : Nat) :
    Mirrors d input output (c.exec (streams d.logged) false (bound + 4) position tape w)
      (c.exec inMemory true (bound + 4) position tape v) := by
  cases c with
  | move n | add n | reset => exact .through h
  | read => exact mirrors_read hd h bound
  | write => exact mirrors_write hd h tape.get bound

omit hd in
theorem mirrors_whileNonzero
    {f : Tape → σ × Array (Event system) → Passage (σ × Array (Event system))}
    {g : Tape → Bytes → Passage Bytes}
    (hfg : ∀ tape w v, Sees input output w v → Mirrors d input output (f tape w) (g tape v))
    (hg : ∀ tape v, v.written <+: (world (g tape v)).written) (bound : Nat) (tape : Tape)
    (w : σ × Array (Event system)) (v : Bytes) (h : Sees input output w v) :
    Mirrors d input output (whileNonzero f bound tape w) (whileNonzero g bound tape v) := by
  induction bound generalizing tape w v with
  | zero => exact .unfinished h
  | succ bound ih =>
    unfold whileNonzero
    by_cases hz : tape.get = 0
    · rw [if_pos hz, if_pos hz]
      exact .through h
    · rw [if_neg hz, if_neg hz]
      exact (hfg tape w v h).andThen ih (prefix_whileNonzero hg)

/-- A tree that sees the same bytes in the system and in memory does the same to them. A read or a
write needs four requests at most. -/
theorem mirrors_exec (t : Tree) (bound : Nat) (tape : Tape) (w : σ × Array (Event system))
    (v : Bytes) (h : Sees input output w v) :
    Mirrors d input output (t.exec (streams d.logged) false (bound + 4) tape w)
      (t.exec inMemory true (bound + 4) tape v) := by
  induction t generalizing tape w v with
  | nil => exact .through h
  | command c position rest ih => exact (mirrors_command hd c h bound).andThen ih (prefix_exec rest)
  | loop opening closing body rest ihb ihr =>
    exact (mirrors_whileNonzero ihb (prefix_exec body) _ tape w v h).andThen ihr (prefix_exec rest)

end Mirrors

end TapeLang.Job
