import TapeLang.Proofs.Streams.Bytes
import TapeLang.Stream.Channel
import TapeLang.Transfer

/-!
# Both ends of a channel

Senders send bytes, are cloned and dropped, while the receiver looks, takes bytes, or reads one with
a call that looks and takes. All this may happen in any order: a byte or the end may arrive between
a look and what follows it.

* `Channel.peek_spec`, `Channel.next?_of_cons`, `Channel.next?_of_nil`: the answers of a channel, by
  the bytes that are not delivered yet.
* `Link`, `Link.Step`, `Link.Runs`: both ends, what may happen next, and what has happened.
* `Link.Sound.step`: what each step keeps.
* `Link.Faithful`: no byte is lost, doubled or overtaken, and the answers are true.
-/

namespace TapeLang

namespace Channel

/-! ## Answers -/

variable {c c' : Channel} {byte : UInt8} {rest : List UInt8}

theorem queue_of_some (h : c.sent[c.received]? = some byte) :
    c.queue = byte :: c.sent.toList.drop (c.received + 1) := by
  rw [← Array.getElem?_toList] at h
  obtain ⟨hlt, rfl⟩ := List.getElem?_eq_some_iff.mp h
  exact List.drop_eq_getElem_cons hlt

theorem queue_of_none (h : c.sent[c.received]? = none) : c.queue = [] := by
  rw [← Array.getElem?_toList, List.getElem?_eq_none_iff] at h
  exact List.drop_eq_nil_of_le h

/-- Where the oldest byte is that is not delivered: held, or in the queue. -/
theorem undelivered_cases (c : Channel) :
    (∃ byte, c.held = some byte ∧ c.undelivered = byte :: c.queue) ∨
    (∃ byte, c.held = none ∧ c.sent[c.received]? = some byte ∧
      c.undelivered = byte :: c.sent.toList.drop (c.received + 1)) ∨
    (c.held = none ∧ c.sent[c.received]? = none ∧ c.undelivered = []) := by
  unfold undelivered
  cases c.held with
  | some byte => exact .inl ⟨byte, rfl, rfl⟩
  | none =>
    cases hqueue : c.sent[c.received]? with
    | some byte => exact .inr (.inl ⟨byte, rfl, rfl, queue_of_some hqueue⟩)
    | none => exact .inr (.inr ⟨rfl, rfl, queue_of_none hqueue⟩)

/-- No byte is left, and no sender who could send another. -/
structure Drained (c : Channel) : Prop where
  undelivered : c.undelivered = []
  closed : c.isOpen = false

/-- What a look has found is so. -/
theorem peek_spec (c : Channel) : match c.peek.1 with
    | .ready => ∃ byte rest, c.undelivered = byte :: rest
    | .pending => c.undelivered = [] ∧ c.isOpen = true
    | .closed => c.Drained := by
  obtain ⟨byte, hheld, hu⟩ | ⟨byte, hheld, hsent, hu⟩ | ⟨hheld, hsent, hu⟩ := c.undelivered_cases
  · rw [peek, hheld]
    exact ⟨byte, _, hu⟩
  · rw [peek, hheld, hsent]
    exact ⟨byte, _, hu⟩
  · rw [peek, hheld, hsent]
    cases hopen : c.isOpen with
    | true => exact ⟨hu, rfl⟩
    | false => exact ⟨hu, hopen⟩

@[simp] theorem undelivered_peek (c : Channel) : c.peek.2.undelivered = c.undelivered := by
  obtain ⟨byte, hheld, hu⟩ | ⟨byte, hheld, hsent, hu⟩ | ⟨hheld, hsent, hu⟩ := c.undelivered_cases
  · rw [peek, hheld]
  · rw [peek, hheld, hsent, hu]
    rfl
  · rw [peek, hheld, hsent]

@[simp] theorem isOpen_peek (c : Channel) : c.peek.2.isOpen = c.isOpen := by
  unfold peek
  split <;> rfl

theorem next?_of_cons (h : c.undelivered = byte :: rest) :
    ∃ c', c.next? = some (some byte, c') ∧ c'.undelivered = rest ∧ c'.isOpen = c.isOpen := by
  obtain ⟨byte', hheld, hu⟩ | ⟨byte', hheld, hsent, hu⟩ | ⟨hheld, hsent, hu⟩ := c.undelivered_cases
  · cases h.symm.trans hu
    exact ⟨{ c with held := none }, by rw [next?, hheld], rfl, rfl⟩
  · cases h.symm.trans hu
    refine ⟨{ c with received := c.received + 1 }, by rw [next?, hheld, hsent], ?_, rfl⟩
    show c.held.toList ++ _ = _
    rw [hheld]
    rfl
  · cases h.symm.trans hu

theorem next?_of_nil (h : c.undelivered = []) :
    c.next? = if c.isOpen then none else some (none, c) := by
  obtain ⟨byte', hheld, hu⟩ | ⟨byte', hheld, hsent, hu⟩ | ⟨hheld, hsent, hu⟩ := c.undelivered_cases
  · cases h.symm.trans hu
  · cases h.symm.trans hu
  · rw [next?, hheld, hsent]

theorem undelivered_of_next? {byte : Option UInt8} (h : c.next? = some (byte, c')) :
    c.undelivered = byte.toList ++ c'.undelivered ∧ c'.isOpen = c.isOpen := by
  cases hu : c.undelivered with
  | nil =>
    rw [next?_of_nil hu] at h
    split at h
    · cases h
    · cases h
      exact ⟨hu.symm, rfl⟩
  | cons oldest rest =>
    obtain ⟨c'', hc, hrest, hopen⟩ := next?_of_cons hu
    cases hc.symm.trans h
    rw [hrest]
    exact ⟨rfl, hopen⟩

/-- No more bytes are received than have been sent. -/
def Sane (c : Channel) : Prop := c.received ≤ c.sent.size

theorem Sane.peek (h : c.Sane) : c.peek.2.Sane := by
  unfold Channel.peek
  split
  · exact h
  · rename_i hsent
    exact (Array.getElem?_eq_some_iff.mp hsent).1
  · exact h

theorem Sane.next? (h : c.Sane) {byte : Option UInt8} (hn : c.next? = some (byte, c')) :
    c'.Sane := by
  unfold Channel.next? at hn
  split at hn
  · cases hn
    exact h
  · rename_i hsent
    cases hn
    exact (Array.getElem?_eq_some_iff.mp hsent).1
  · split at hn
    · cases hn
    · cases hn
      exact h

theorem Sane.undelivered_send (h : c.Sane) (bytes : List UInt8) :
    (c.send bytes).undelivered = c.undelivered ++ bytes := by
  show c.held.toList ++ (c.sent ++ bytes).toList.drop c.received = _
  rw [Array.toList_appendList, List.drop_append_of_le_length h, ← List.append_assoc]
  rfl

theorem Sane.send (h : c.Sane) (bytes : List UInt8) : (c.send bytes).Sane := by
  show c.received ≤ (c.sent ++ bytes).size
  rw [← Array.length_toList, Array.toList_appendList, List.length_append, Array.length_toList]
  exact Nat.le_add_right_of_le h

/-- The receiving end of a channel. It does not answer `next` while there is no byte and a sender is
left: whoever asks is kept waiting. -/
def answer? (c : Channel) : (request : ByteRequest) → Option (request.Reply × Channel)
  | .canPeek => some (true, c)
  | .peek => some (.ok c.peek.1, c.peek.2)
  | .next => c.next?.map fun (byte, c) => (.ok byte, c)
  | .pause => some ((), c)
  | .put _ | .flush => none

theorem answer?_peek (c : Channel) : c.answer? .peek = some (.ok c.peek.1, c.peek.2) := rfl

theorem answer?_next (c : Channel) :
    c.answer? .next = c.next?.map fun (byte, c) => (.ok byte, c) := rfl

/-- What is taken is the oldest byte that was not delivered. -/
theorem Sane.answer? (h : c.Sane) {request : ByteRequest} {reply : request.Reply}
    (ha : c.answer? request = some (reply, c')) :
    c.undelivered = (Event.taken? ⟨request, reply⟩).toList ++ c'.undelivered ∧
      c'.isOpen = c.isOpen ∧ c'.Sane := by
  cases request with
  | canPeek | pause =>
    cases ha
    exact ⟨rfl, rfl, h⟩
  | put | flush => cases ha
  | peek =>
    cases ha
    exact ⟨c.undelivered_peek.symm, c.isOpen_peek, h.peek⟩
  | next =>
    rw [answer?_next, Option.map_eq_some_iff] at ha
    obtain ⟨⟨byte, c''⟩, hnext, heq⟩ := ha
    cases heq
    obtain ⟨hu, hopen⟩ := undelivered_of_next? hnext
    exact ⟨hu, hopen, h.next? hnext⟩

theorem drained_of_next? (h : c.next? = some (none, c')) : c'.Drained := by
  cases hu : c.undelivered with
  | nil =>
    rw [next?_of_nil hu] at h
    split at h
    · cases h
    · rename_i hclosed
      cases h
      exact ⟨hu, (Bool.not_eq_true _).mp hclosed⟩
  | cons oldest rest =>
    obtain ⟨c'', hc, -⟩ := next?_of_cons hu
    cases hc.symm.trans h

namespace Drained

theorem peek_eq (h : c.Drained) : c.peek = (.closed, c) := by
  obtain ⟨byte, hheld, hu⟩ | ⟨byte, hheld, hsent, hu⟩ | ⟨hheld, hsent, hu⟩ := c.undelivered_cases
  · cases h.undelivered.symm.trans hu
  · cases h.undelivered.symm.trans hu
  · rw [peek, hheld, hsent]
    simp only [h.closed, Bool.false_eq_true, if_false]

theorem next?_eq (h : c.Drained) : c.next? = some (none, c) := by
  rw [next?_of_nil h.undelivered, h.closed]
  rfl

/-- All that such a channel ever answers. -/
theorem answer? (h : c.Drained) {request : ByteRequest} {reply : request.Reply}
    (ha : c.answer? request = some (reply, c')) : c' = c := by
  cases request with
  | canPeek | pause =>
    cases ha
    rfl
  | put | flush => cases ha
  | peek =>
    rw [answer?_peek, h.peek_eq] at ha
    cases ha
    rfl
  | next =>
    rw [answer?_next, h.next?_eq] at ha
    cases ha
    rfl

end Drained

end Channel

/-! ## Both ends -/

/-- A call that reads one byte, and what it does next. -/
structure Reading where
  canPeek : Bool
  position : Option Position
  next : Transfer.Next

/-- A channel with its senders, and the receiver, which may be in the middle of a call. -/
structure Link where
  channel : Channel
  senders : Nat
  reading : Option Reading

/-- What may happen at either end. -/
inductive Happening where
  | sent (byte : UInt8)
  | cloned
  | dropped
  | called (canPeek : Bool) (position : Option Position)
  | answered (event : Event byteStream)
  | returned (outcome : Transfer.Outcome)

namespace Happening

def sent? : Happening → Option UInt8
  | sent byte => some byte
  | _ => none

def taken? : Happening → Option UInt8
  | answered event => event.taken?
  | _ => none

end Happening

namespace Link

/-- The bytes that have been sent, oldest first. -/
def sentIn (trace : List Happening) : List UInt8 := trace.filterMap Happening.sent?

/-- The bytes that have been taken, oldest first. -/
def takenIn (trace : List Happening) : List UInt8 := trace.filterMap Happening.taken?

/-- A new channel has one sender. -/
def new : Link := ⟨.empty, 1, none⟩

/-- One step of a sender or of the receiver. Looks and taken bytes are those of the receiver itself,
or of the call it is in. -/
inductive Step : Link → Happening → Link → Prop
  | send {c : Channel} {n : Nat} {reading : Option Reading} (byte : UInt8) :
    Step ⟨c, n + 1, reading⟩ (.sent byte) ⟨c.send [byte], n + 1, reading⟩
  | clone {c : Channel} {n : Nat} {reading : Option Reading} :
    Step ⟨c, n + 1, reading⟩ .cloned ⟨c, n + 2, reading⟩
  | drop {c : Channel} {n : Nat} {reading : Option Reading} :
    Step ⟨c, n + 2, reading⟩ .dropped ⟨c, n + 1, reading⟩
  | dropLast {c : Channel} {reading : Option Reading} :
    Step ⟨c, 1, reading⟩ .dropped ⟨c.close, 0, reading⟩
  | ask {c c' : Channel} {n : Nat} {request : ByteRequest} {reply : request.Reply} :
    c.answer? request = some (reply, c') →
    Step ⟨c, n, none⟩ (.answered ⟨request, reply⟩) ⟨c', n, none⟩
  | call {c : Channel} {n : Nat} (canPeek : Bool) (position : Option Position) :
    Step ⟨c, n, none⟩ (.called canPeek position)
      ⟨c, n, some ⟨canPeek, position, .stage (.reading canPeek)⟩⟩
  | stage {c c' : Channel} {n : Nat} {canPeek : Bool} {position : Option Position} {t : Transfer}
    {reply : t.request.Reply} : c.answer? t.request = some (reply, c') →
    Step ⟨c, n, some ⟨canPeek, position, .stage t⟩⟩ (.answered ⟨t.request, reply⟩)
      ⟨c', n, some ⟨canPeek, position, t.resume canPeek position reply⟩⟩
  | done {c : Channel} {n : Nat} {canPeek : Bool} {position : Option Position}
    {outcome : Transfer.Outcome} :
    Step ⟨c, n, some ⟨canPeek, position, .done outcome⟩⟩ (.returned outcome) ⟨c, n, none⟩

/-- Any number of steps, with all that happens on the way. -/
inductive Runs : Link → List Happening → Link → Prop
  | refl (l : Link) : Runs l [] l
  | concat {l l' l'' : Link} {trace : List Happening} {happening : Happening} :
    Runs l trace l' → Step l' happening l'' → Runs l (trace ++ [happening]) l''

variable {l l' l'' : Link} {trace later : List Happening} {happening : Happening}

theorem Step.answer? {event : Event byteStream} (h : Step l (.answered event) l') :
    l.channel.answer? event.request = some (event.reply, l'.channel) := by
  cases h with
  | ask h => exact h
  | stage h => exact h

/-! ## What each step keeps -/

/-- What is so after everything that may have happened. -/
structure Sound (trace : List Happening) (l : Link) : Prop where
  conserved : sentIn trace = takenIn trace ++ l.channel.undelivered
  sane : l.channel.Sane
  isOpen : l.channel.isOpen = true ↔ 0 < l.senders
  /-- A call has seen the end only if it has come. -/
  exhausted : ∀ r ∈ l.reading, ∀ position, r.next = .done (.failed (.inputExhausted position)) →
    l.channel.Drained

theorem sound_new : Sound [] new where
  conserved := rfl
  sane := Nat.zero_le 0
  isOpen := by decide
  exhausted r hr := nomatch hr

theorem sentIn_append (trace later : List Happening) :
    sentIn (trace ++ later) = sentIn trace ++ sentIn later := List.filterMap_append

theorem takenIn_append (trace later : List Happening) :
    takenIn (trace ++ later) = takenIn trace ++ takenIn later := List.filterMap_append

theorem sentIn_singleton (happening : Happening) :
    sentIn [happening] = happening.sent?.toList := by
  rw [sentIn, List.filterMap_cons]
  cases happening.sent? <;> rfl

theorem takenIn_singleton (happening : Happening) :
    takenIn [happening] = happening.taken?.toList := by
  rw [takenIn, List.filterMap_cons]
  cases happening.taken? <;> rfl

/-- What is undelivered changes by what is sent at its end, and by what is taken at its front. -/
theorem Step.conserves (h : Step l happening l') (hsane : l.channel.Sane) :
    l.channel.undelivered ++ happening.sent?.toList =
        happening.taken?.toList ++ l'.channel.undelivered ∧
      l'.channel.Sane := by
  cases h with
  | send byte => exact ⟨(hsane.undelivered_send [byte]).symm, hsane.send [byte]⟩
  | clone | drop | dropLast | call | done => exact ⟨List.append_nil _, hsane⟩
  | ask ha | stage ha =>
    obtain ⟨hu, -, hsane'⟩ := hsane.answer? ha
    exact ⟨(List.append_nil _).trans hu, hsane'⟩

theorem Step.isOpen (h : Step l happening l') (hsane : l.channel.Sane)
    (hopen : l.channel.isOpen = true ↔ 0 < l.senders) :
    l'.channel.isOpen = true ↔ 0 < l'.senders := by
  cases h with
  | send | call | done => exact hopen
  | clone | drop => exact ⟨fun _ => Nat.succ_pos _, fun _ => hopen.mpr (Nat.succ_pos _)⟩
  | dropLast => exact ⟨fun h => (Bool.false_ne_true h).elim, fun h => (Nat.lt_irrefl 0 h).elim⟩
  | ask ha | stage ha =>
    obtain ⟨-, heq, -⟩ := hsane.answer? ha
    exact heq ▸ hopen

/-- Nothing happens to a channel that is drained. -/
theorem Sound.channel_eq (h : Sound trace l) (hd : l.channel.Drained)
    (hs : Step l happening l') : l'.channel = l.channel := by
  have hnone : l.senders = 0 := by
    apply Nat.eq_zero_of_not_pos
    rw [← h.isOpen, hd.closed]
    exact Bool.false_ne_true
  cases hs with
  | send | clone | drop | dropLast => cases hnone
  | call | done => rfl
  | ask ha | stage ha => exact hd.answer? ha

/-- A call sees the end when the channel has nothing to give and never will. -/
theorem drained_of_exhausted {c c' : Channel} {canPeek : Bool} {position position' : Option Position}
    {t : Transfer} {reply : t.request.Reply} (ha : c.answer? t.request = some (reply, c'))
    (hr : t.resume canPeek position reply = .done (.failed (.inputExhausted position'))) :
    c'.Drained := by
  cases t with
  | prompt | offer => cases ha
  | wait => cases hr
  | look =>
    cases ha
    generalize c.peek.1 = found at hr
    cases found <;> cases hr
  | take =>
    rw [Channel.answer?_next, Option.map_eq_some_iff] at ha
    obtain ⟨⟨byte, c''⟩, hnext, heq⟩ := ha
    cases heq
    cases byte with
    | some byte => cases hr
    | none => exact Channel.drained_of_next? hnext

theorem Sound.step (h : Sound trace l) (hs : Step l happening l') :
    Sound (trace ++ [happening]) l' := by
  obtain ⟨hconserves, hsane⟩ := hs.conserves h.sane
  refine ⟨?_, hsane, hs.isOpen h.sane h.isOpen, ?_⟩
  · calc sentIn (trace ++ [happening])
      _ = takenIn trace ++ (l.channel.undelivered ++ happening.sent?.toList) := by
        rw [sentIn_append, sentIn_singleton, h.conserved, List.append_assoc]
      _ = takenIn (trace ++ [happening]) ++ l'.channel.undelivered := by
        rw [hconserves, takenIn_append, takenIn_singleton, List.append_assoc]
  · intro r hr position hnext
    have hkept (hr : r ∈ l.reading) : l'.channel.Drained := by
      have hd := h.exhausted r hr position hnext
      rw [h.channel_eq hd hs]
      exact hd
    cases hs with
    | send | clone | drop | dropLast => exact hkept hr
    | ask | done => cases hr
    | call =>
      cases hr
      cases hnext
    | stage ha =>
      cases hr
      exact drained_of_exhausted ha hnext

theorem Runs.sound (h : Runs l trace l') {earlier : List Happening} (hl : Sound earlier l) :
    Sound (earlier ++ trace) l' := by
  induction h with
  | refl => rwa [List.append_nil]
  | concat _ hs ih =>
    rw [← List.append_assoc]
    exact ih.step hs

theorem Runs.channel_eq (h : Runs l later l') (hl : Sound trace l) (hd : l.channel.Drained) :
    l'.channel = l.channel := by
  induction h with
  | refl => rfl
  | concat hruns hs ih => exact ((hruns.sound hl).channel_eq (ih ▸ hd) hs).trans ih

/-! ## What both ends can rely on -/

/-- After `trace` no byte is lost, doubled or overtaken: what has been sent is what has been taken,
then the byte held since a look, then the queue. And what the receiver is told is so: a byte that is
ready is the oldest one not taken and will be there whatever happens until it is; where there is
none yet, a sender is left; the end is there for good, and a call only fails because of it. -/
structure Faithful (trace : List Happening) (l : Link) : Prop where
  conserved : sentIn trace = takenIn trace ++ l.channel.held.toList ++ l.channel.queue
  ready : ∀ l', Step l (.answered ⟨.peek, .ok .ready⟩) l' →
    ∃ byte rest, sentIn trace = takenIn trace ++ byte :: rest ∧
      ∀ later l'', Runs l' later l'' → takenIn later = [] →
        ∃ c, l''.channel.answer? .next = some (.ok (some byte), c)
  pending : ∀ l', Step l (.answered ⟨.peek, .ok .pending⟩) l' →
    sentIn trace = takenIn trace ∧ 0 < l.senders
  closed : ∀ l', Step l (.answered ⟨.peek, .ok .closed⟩) l' →
    sentIn trace = takenIn trace ∧ l.senders = 0 ∧
      ∀ later l'', Runs l' later l'' →
        l''.channel.answer? .peek = some (.ok .closed, l''.channel) ∧
        l''.channel.answer? .next = some (.ok none, l''.channel)
  exhausted : ∀ position l', Step l (.returned (.failed (.inputExhausted position))) l' →
    sentIn trace = takenIn trace ∧ l.senders = 0

theorem Step.found {found : Availability} (h : Step l (.answered ⟨.peek, .ok found⟩) l') :
    found = l.channel.peek.1 ∧ l'.channel = l.channel.peek.2 := by
  have ha := h.answer?
  rw [Channel.answer?_peek, Option.some_inj, Prod.mk.injEq, Except.ok.injEq] at ha
  exact ⟨ha.1.symm, ha.2.symm⟩

theorem Sound.nothing_left (h : Sound trace l) (hu : l.channel.undelivered = []) :
    sentIn trace = takenIn trace := by
  rw [h.conserved, hu, List.append_nil]

theorem Sound.senders_eq (h : Sound trace l) (hclosed : l.channel.isOpen = false) :
    l.senders = 0 := by
  apply Nat.eq_zero_of_not_pos
  rw [← h.isOpen, hclosed]
  exact Bool.false_ne_true

theorem Sound.ready (h : Sound trace l) (hs : Step l (.answered ⟨.peek, .ok .ready⟩) l') :
    ∃ byte rest, sentIn trace = takenIn trace ++ byte :: rest ∧
      ∀ later l'', Runs l' later l'' → takenIn later = [] →
        ∃ c, l''.channel.answer? .next = some (.ok (some byte), c) := by
  have hspec := l.channel.peek_spec
  rw [← hs.found.1] at hspec
  obtain ⟨byte, rest, hu⟩ := hspec
  refine ⟨byte, rest, by rw [h.conserved, hu], ?_⟩
  intro later l'' hruns hlater
  -- what is undelivered then: the same bytes and what has been sent since
  have hthen : l''.channel.undelivered = byte :: (rest ++ sentIn later) := by
    refine List.append_cancel_left (?_ : takenIn trace ++ _ = takenIn trace ++ _)
    calc takenIn trace ++ l''.channel.undelivered
      _ = sentIn (trace ++ [.answered ⟨.peek, .ok .ready⟩] ++ later) := by
        rw [(hruns.sound (h.step hs)).conserved, takenIn_append, takenIn_append, hlater,
          takenIn_singleton, List.append_nil]
        exact congrArg (· ++ _) (List.append_nil _).symm
      _ = takenIn trace ++ byte :: (rest ++ sentIn later) := by
        rw [sentIn_append, sentIn_append, sentIn_singleton, h.conserved, hu]
        simp [Happening.sent?]
  obtain ⟨c, hnext, -⟩ := Channel.next?_of_cons hthen
  exact ⟨c, by rw [Channel.answer?_next, hnext]; rfl⟩

theorem Sound.closed (h : Sound trace l) (hs : Step l (.answered ⟨.peek, .ok .closed⟩) l') :
    sentIn trace = takenIn trace ∧ l.senders = 0 ∧
      ∀ later l'', Runs l' later l'' →
        l''.channel.answer? .peek = some (.ok .closed, l''.channel) ∧
        l''.channel.answer? .next = some (.ok none, l''.channel) := by
  have hd := l.channel.peek_spec
  rw [← hs.found.1] at hd
  have hd : l.channel.Drained := hd
  refine ⟨h.nothing_left hd.undelivered, h.senders_eq hd.closed, ?_⟩
  intro later l'' hruns
  have hd' : l'.channel.Drained := (h.channel_eq hd hs).symm ▸ hd
  have hd'' : l''.channel.Drained := (hruns.channel_eq (h.step hs) hd').symm ▸ hd'
  rw [Channel.answer?_peek, Channel.answer?_next, hd''.peek_eq, hd''.next?_eq]
  exact ⟨rfl, rfl⟩

theorem Sound.faithful (h : Sound trace l) : Faithful trace l where
  conserved := by
    rw [h.conserved, Channel.undelivered, List.append_assoc]
  ready l' hs := h.ready hs
  pending l' hs := by
    have hspec := l.channel.peek_spec
    rw [← hs.found.1] at hspec
    exact ⟨h.nothing_left hspec.1, h.isOpen.mp hspec.2⟩
  closed l' hs := h.closed hs
  exhausted position l' hs := by
    cases hs with
    | done =>
      have hd := h.exhausted _ rfl position rfl
      exact ⟨h.nothing_left hd.undelivered, h.senders_eq hd.closed⟩

/-- Whatever happens at the two ends of a channel, and in whatever order. -/
theorem faithful_of_runs (h : Runs new trace l) : Faithful trace l :=
  (h.sound sound_new).faithful

/-- The sender leaves between a look and the call that takes the byte, and the next call fails. -/
theorem faithful_of_runs_drained :
    let l : Link := ⟨⟨#[104], 1, none, false⟩, 0,
      some ⟨true, none, .done (.failed (.inputExhausted none))⟩⟩
    let trace : List Happening := [.sent 104, .answered ⟨.peek, .ok .ready⟩, .dropped,
      .called true none, .answered ⟨.peek, .ok .ready⟩, .answered ⟨.next, .ok (some 104)⟩,
      .returned (.received 104), .called true none, .answered ⟨.peek, .ok .closed⟩,
      .answered ⟨.next, .ok none⟩]
    Runs new trace l ∧ Faithful trace l := by
  intro l trace
  have hlook := ((Runs.refl new).concat (.send 104)).concat
    (show Step _ (.answered ⟨.peek, .ok .ready⟩) _ from .ask rfl)
  have htake := (((hlook.concat .dropLast).concat (.call true none)).concat
    (.stage (t := .look) rfl)).concat (.stage (t := .take) rfl)
  have hruns : Runs new trace l := (((htake.concat .done).concat (.call true none)).concat
    (.stage (t := .look) rfl)).concat (.stage (t := .take) rfl)
  exact ⟨hruns, faithful_of_runs hruns⟩

end Link

end TapeLang
