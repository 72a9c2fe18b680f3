import TapeLang.Proofs.Correspondence
import TapeLang.Proofs.Engine
import TapeLang.Proofs.Streams.Bytes
import TapeLang.Proofs.Streams.Channel
import TapeLang.Proofs.Tree.Surroundings
import TapeLang.Stream.Buffered

/-!
# Inputs in place of each other

Bytes in memory, bytes read through a buffer and bytes sent through a channel are all the same to a
program, although two of these can be looked at and one cannot.

* `Source.Delivers`: an input gives some bytes one behind the other, without failures or waiting.
* `Cursor.delivers`, `Buffered.delivers`, `Delivery.delivers`: the three inputs do.
* `Source.Delivers.read`: what a read from such an input comes to.
* `Source.Delivers.corresponds`: runs with two such inputs that have the same bytes to give.
* `inputs_interchangeable`: all this for the three inputs.
-/

namespace TapeLang

open Course

variable {σ σ' τ : Type}

/-- Where `holds s bytes`, the bytes that the input has left to give are `bytes`. It gives them in
order and then says that there are none; a look tells which of the two comes next. -/
structure Source.Delivers (source : Source σ) (holds : σ → List UInt8 → Prop) : Prop where
  peek : ∀ s bytes, holds s bytes →
    (source.peek s).1 = .ok (if bytes.isEmpty then .closed else .ready) ∧
      holds (source.peek s).2 bytes
  next : ∀ s bytes, holds s bytes →
    (source.next s).1 = .ok bytes.head? ∧ holds (source.next s).2 bytes.tail

/-! ## The inputs -/

theorem Cursor.delivers : Cursor.source.Delivers fun c bytes => c.unread.toList = bytes where
  peek c bytes h := by
    refine ⟨congrArg Except.ok ?_, h⟩
    show c.peek = _
    rw [toList_unread] at h
    cases bytes with
    | nil => exact c.peek_of_end (by simpa using h)
    | cons byte bytes =>
      have hlength := congrArg List.length h
      rw [List.length_drop, Array.length_toList, List.length_cons] at hlength
      exact c.peek_of_lt (by omega)
  next c bytes h := by
    show Except.ok c.next.1 = _ ∧ c.next.2.unread.toList = _
    rw [toList_unread] at h ⊢
    cases bytes with
    | nil =>
      rw [c.next_of_end (by simpa using h)]
      exact ⟨rfl, h⟩
    | cons byte bytes =>
      have hlt : c.index < c.bytes.size := by
        have hlength := congrArg List.length h
        rw [List.length_drop, Array.length_toList, List.length_cons] at hlength
        omega
      rw [← Array.length_toList] at hlt
      rw [List.drop_eq_getElem_cons hlt] at h
      obtain ⟨hbyte, hrest⟩ := List.cons_eq_cons.mp h
      rw [next_of_lt hlt]
      exact ⟨congrArg (Except.ok ∘ some) hbyte, hrest⟩

namespace Buffered

/-- Pieces of a stream that has come to its end once a read has given nothing. -/
def EndsOnce (pieces : List (List UInt8)) : Prop :=
  pieces.Pairwise fun earlier later => earlier = [] → later = []

/-- The stream below does not fail, whatever pieces it comes in. -/
structure Holds (b : Buffered) (bytes : List UInt8) : Prop where
  room : 0 < b.capacity
  pieces : ∃ pieces, EndsOnce pieces ∧ b.chunks = pieces.map .bytes ∧
    b.buffer ++ pieces.flatten = bytes

theorem holds_ofChunks {capacity : Nat} (hc : 0 < capacity) {pieces : List (List UInt8)}
    (h : EndsOnce pieces) : Holds (ofChunks capacity (pieces.map .bytes)) pieces.flatten :=
  ⟨hc, pieces, h, rfl, rfl⟩

theorem Holds.unread_eq {b : Buffered} {bytes : List UInt8} (h : b.Holds bytes) :
    b.unread = bytes := by
  obtain ⟨pieces, -, hchunks, hbytes⟩ := h.pieces
  rw [← hbytes, unread, hchunks, List.flatMap_map, List.flatten_eq_flatMap]
  rfl

/-- A piece that does not fit into the buffer is cut in two. -/
theorem EndsOnce.cut {piece : List UInt8} {rest : List (List UInt8)}
    (h : EndsOnce (piece :: rest)) (n : Nat) :
    EndsOnce (if (piece.drop n).isEmpty then rest else piece.drop n :: rest) := by
  have hrest := List.pairwise_cons.mp h
  split
  · exact hrest.2
  · rename_i hdrop
    refine List.pairwise_cons.mpr ⟨fun later _ hnil => ?_, hrest.2⟩
    exact absurd (List.isEmpty_iff.mpr hnil) hdrop

theorem fill_of_buffered {b : Buffered} (h : b.buffer ≠ []) : b.fill = (.ok (), b) := by
  unfold fill
  split
  · exact absurd ‹b.buffer = []› h
  · exact absurd ‹b.buffer = []› h
  · rfl

theorem fill_of_piece (capacity : Nat) (piece : List UInt8) (rest : List (List UInt8)) :
    fill ⟨capacity, [], (piece :: rest).map .bytes⟩ =
      (.ok (), ⟨capacity, piece.take capacity,
        (if (piece.drop capacity).isEmpty then rest else piece.drop capacity :: rest).map
          .bytes⟩) := by
  simp only [fill, List.map_cons]
  split <;> rfl

/-- After a read from below, a byte is in the buffer unless there are none left. -/
theorem holds_fill {b : Buffered} {bytes : List UInt8} (h : b.Holds bytes) :
    ∃ b', b.fill = (.ok (), b') ∧ b'.Holds bytes ∧ b'.buffer.head? = bytes.head? := by
  obtain ⟨hroom, pieces, hends, hchunks, hbytes⟩ := h
  obtain ⟨capacity, buffer, chunks⟩ := b
  cases hchunks
  cases hbytes
  cases buffer with
  | cons byte buffer =>
    exact ⟨_, fill_of_buffered (List.cons_ne_nil _ _), ⟨hroom, pieces, hends, rfl, rfl⟩, rfl⟩
  | nil =>
    cases pieces with
    | nil => exact ⟨_, rfl, ⟨hroom, [], hends, rfl, rfl⟩, rfl⟩
    | cons piece rest =>
      refine ⟨_, fill_of_piece capacity piece rest, ⟨hroom, _, hends.cut capacity, rfl, ?_⟩, ?_⟩
      · show piece.take capacity ++ _ = piece ++ rest.flatten
        split
        · rename_i hdrop
          rw [List.take_of_length_le (List.drop_eq_nil_iff.mp (List.isEmpty_iff.mp hdrop))]
        · rw [List.flatten_cons, ← List.append_assoc, List.take_append_drop]
      · show (piece.take capacity).head? = (piece ++ rest.flatten).head?
        cases piece with
        | cons byte piece =>
          obtain ⟨n, rfl⟩ := Nat.exists_eq_succ_of_ne_zero (Nat.ne_of_gt hroom)
          rfl
        | nil =>
          -- the end: whatever comes later is empty as well
          have hlater : rest.flatten = [] := by
            apply List.flatten_eq_nil_iff.mpr
            intro later hl
            exact (List.pairwise_cons.mp hends).1 later hl rfl
          rw [hlater, List.take_nil]
          rfl

theorem holds_tail {b : Buffered} {bytes : List UInt8} (h : b.Holds bytes)
    (hhead : b.buffer.head? = bytes.head?) :
    Holds { b with buffer := b.buffer.tail } bytes.tail := by
  obtain ⟨hroom, pieces, hends, hchunks, hbytes⟩ := h
  refine ⟨hroom, pieces, hends, hchunks, ?_⟩
  obtain ⟨capacity, buffer, chunks⟩ := b
  cases buffer with
  | cons byte buffer =>
    cases hbytes
    rfl
  | nil =>
    cases List.head?_eq_none_iff.mp hhead.symm
    exact hbytes

theorem delivers : source.Delivers Holds where
  peek b bytes h := by
    obtain ⟨b', hfill, hholds, hhead⟩ := holds_fill h
    have hempty : b'.buffer.isEmpty = bytes.isEmpty := by
      rw [Bool.eq_iff_iff, List.isEmpty_iff, List.isEmpty_iff, ← List.head?_eq_none_iff, hhead,
        List.head?_eq_none_iff]
    have hpeek : b.peek = (.ok (if bytes.isEmpty then .closed else .ready), b') := by
      rw [peek, hfill, ← hempty]
    show b.peek.1 = _ ∧ b.peek.2.Holds bytes
    rw [hpeek]
    exact ⟨rfl, hholds⟩
  next b bytes h := by
    obtain ⟨b', hfill, hholds, hhead⟩ := holds_fill h
    have hnext : b.next = (.ok bytes.head?, { b' with buffer := b'.buffer.tail }) := by
      rw [next, hfill, ← hhead]
    show b.next.1 = _ ∧ b.next.2.Holds bytes.tail
    rw [hnext]
    exact ⟨rfl, holds_tail hholds hhead⟩

end Buffered

/-- A channel whose senders are gone. -/
def Delivery.Holds (d : Delivery) (bytes : List UInt8) : Prop :=
  d.channel.isOpen = false ∧ d.channel.undelivered = bytes

theorem Delivery.delivers : Delivery.source.Delivers Delivery.Holds where
  peek d bytes h := by
    obtain ⟨hclosed, rfl⟩ := h
    refine ⟨?_, d.channel.isOpen_peek.trans hclosed, d.channel.undelivered_peek⟩
    show Except.ok d.channel.peek.1 = _
    have hspec := d.channel.peek_spec
    cases hfound : d.channel.peek.1 with
    | ready =>
      rw [hfound] at hspec
      obtain ⟨byte, rest, hu⟩ := hspec
      rw [hu]
      rfl
    | pending =>
      rw [hfound] at hspec
      cases hclosed.symm.trans hspec.2
    | closed =>
      rw [hfound] at hspec
      have hd : d.channel.Drained := hspec
      rw [hd.undelivered]
      rfl
  next d bytes h := by
    obtain ⟨hclosed, rfl⟩ := h
    show Except.ok d.next.1 = _ ∧ d.next.2.Holds _
    cases hu : d.channel.undelivered with
    | nil =>
      have hnext : d.next = (none, d) := by
        rw [Delivery.next, Channel.next?_of_nil hu, hclosed]
        rfl
      rw [hnext]
      exact ⟨rfl, hclosed, hu⟩
    | cons byte rest =>
      obtain ⟨c, hc, hrest, hopen⟩ := Channel.next?_of_cons hu
      have hnext : d.next = (some byte, { d with channel := c }) := by
        rw [Delivery.next, hc]
      rw [hnext]
      exact ⟨rfl, hopen.trans hclosed, hrest⟩

theorem Delivery.holds_ofBytes (bytes : List UInt8) : (Delivery.ofBytes bytes).Holds bytes :=
  ⟨rfl, by simp [ofBytes, Channel.undelivered, Channel.queue]⟩

/-! ## Reads -/

section Read

variable {source : Source σ} {holds : σ → List UInt8 → Prop} {s : σ} {bytes : List UInt8}
  (sink : Sink τ) (position : Option Position) (tape : Tape) (o : τ)

/-- What comes of taking a byte when `bytes` are left. -/
def readOutcome (position : Option Position) (bytes : List UInt8) : Transfer.Outcome :=
  match bytes.head? with
  | some byte => .received byte
  | none => .failed (.inputExhausted position)

namespace Source.Delivers

theorem take (h : source.Delivers holds) (hs : holds s bytes) (canPeek : Bool) (bound : Nat) :
    ∃ s', holds s' bytes.tail ∧
      Transfer.take.perform (source.beside sink) canPeek (bound + 2) position tape (s, o) =
        .ofTransfer tape (.halted (readOutcome position bytes) (s', o)) := by
  obtain ⟨hreply, hholds⟩ := h.next s bytes hs
  refine ⟨_, hholds, ?_⟩
  apply Transfer.perform_of_done
  show Transfer.resume canPeek position .take (source.next s).1 = _
  rw [hreply, readOutcome]
  cases bytes <;> rfl

/-- A look in between makes no difference. -/
theorem look (h : source.Delivers holds) (hs : holds s bytes) (canPeek : Bool) (bound : Nat) :
    ∃ s', holds s' bytes.tail ∧
      (Transfer.reading canPeek).perform (source.beside sink) canPeek (bound + 3) position tape
          (s, o) =
        .ofTransfer tape (.halted (readOutcome position bytes) (s', o)) := by
  cases canPeek with
  | false => exact h.take sink position tape o hs false (bound + 1)
  | true =>
    obtain ⟨hreply, hholds⟩ := h.peek s bytes hs
    obtain ⟨s', hs', htake⟩ := h.take sink position tape o hholds true bound
    refine ⟨s', hs', (Transfer.perform_of_stage ?_ _).trans htake⟩
    show Transfer.resume true position .look (source.peek s).1 = _
    rw [hreply]
    cases bytes <;> rfl

/-- A read flushes the output and then takes the next byte, if there is one. -/
theorem read (h : source.Delivers holds) (hs : holds s bytes) (canPeek : Bool) (bound : Nat) :
    ∃ s', Transfer.prompt.perform (source.beside sink) canPeek (bound + 4) position tape (s, o) =
        .ofTransfer tape (.halted (match (sink.flush o).1 with
          | .ok () => readOutcome position bytes
          | .error f => .failed (.stream f)) (s', (sink.flush o).2)) ∧
      holds s' (match (sink.flush o).1 with
        | .ok () => bytes.tail
        | .error _ => bytes) := by
  cases hflush : (sink.flush o).1 with
  | ok =>
    obtain ⟨s', hs', hlook⟩ := h.look sink position tape (sink.flush o).2 hs canPeek bound
    refine ⟨s', (Transfer.perform_of_stage ?_ _).trans hlook, hs'⟩
    show Transfer.resume canPeek position .prompt (sink.flush o).1 = _
    rw [hflush]
    rfl
  | error f =>
    refine ⟨s, ?_, hs⟩
    apply Transfer.perform_of_done
    show Transfer.resume canPeek position .prompt (sink.flush o).1 = _
    rw [hflush]
    rfl

end Source.Delivers

end Read

/-! ## Runs -/

/-- Inputs with the same bytes to give, and the same output. -/
def SameBytes (holds : σ → List UInt8 → Prop) (holds' : σ' → List UInt8 → Prop) (w : σ × τ)
    (w' : σ' × τ) : Prop :=
  (∃ bytes, holds w.1 bytes ∧ holds' w'.1 bytes) ∧ w.2 = w'.2

theorem sameBytes_flush {holds : σ → List UInt8 → Prop} {holds' : σ' → List UInt8 → Prop}
    (source : Source σ) (source' : Source σ') (sink : Sink τ) (w : σ × τ) (w' : σ' × τ)
    (hw : SameBytes holds holds' w w') :
    (source.beside sink .flush w).1 = (source'.beside sink .flush w').1 ∧
      SameBytes holds holds' (source.beside sink .flush w).2
        (source'.beside sink .flush w').2 := by
  obtain ⟨s, o⟩ := w
  obtain ⟨s', _⟩ := w'
  obtain ⟨hs, rfl⟩ := hw
  exact ⟨rfl, hs, rfl⟩

namespace Source.Delivers

variable {source : Source σ} {source' : Source σ'} {holds : σ → List UInt8 → Prop}
  {holds' : σ' → List UInt8 → Prop}

theorem transfersMatch (h : source.Delivers holds) (h' : source'.Delivers holds') (sink : Sink τ)
    (canPeek canPeek' : Bool) :
    TransfersMatch id (SameBytes holds holds') (source.beside sink) canPeek (source'.beside sink)
      canPeek' where
  read bound position tape w w' hw := by
    obtain ⟨s, o⟩ := w
    obtain ⟨s', _⟩ := w'
    obtain ⟨⟨bytes, hs, hs'⟩, rfl⟩ := hw
    rw [Option.map_id_fun, id_eq]
    obtain ⟨t, hread, ht⟩ := h.read sink position tape o hs canPeek bound
    obtain ⟨t', hread', ht'⟩ := h'.read sink position tape o hs' canPeek' bound
    rw [hread, hread']
    exact Passage.matches_ofTransfer tape _ ⟨⟨_, ht, ht'⟩, rfl⟩
  write bound byte position tape w w' hw := by
    have hput (t : Transfer) (ht : t.isRead = false) (w : σ × τ) (w' : σ' × τ)
        (hw : SameBytes holds holds' w w') :
        (source.beside sink t.request w).1 = (source'.beside sink t.request w').1 ∧
          SameBytes holds holds' (source.beside sink t.request w).2
            (source'.beside sink t.request w').2 := by
      obtain ⟨s, o⟩ := w
      obtain ⟨s', _⟩ := w'
      obtain ⟨hs, rfl⟩ := hw
      cases t with
      | prompt | look | wait | take => cases ht
      | offer byte => exact ⟨rfl, hs, rfl⟩
    exact Transfer.matches_perform hput (fun h => nomatch h) (bound + 4) position tape rfl hw

/-- A program does the same with two inputs that have the same bytes to give. -/
theorem corresponds (h : source.Delivers holds) (h' : source'.Delivers holds') (sink : Sink τ)
    {text : String} {c : Config} {p : Program} {e : Engine} (hp : parse text c = .ok p)
    (he : e.Executes p) (tape : Tape) {w : σ × τ} {w' : σ' × τ} (hw : SameBytes holds holds' w w') :
    Course.Corresponds (SameBytes holds holds') (e.course (source.beside sink) tape w)
      (e.course (source'.beside sink) tape w') := by
  by_cases hl : tape.length = p.tapeLength
  · obtain ⟨t, ht⟩ | hcrash := he.tracks hp hl
    · have happroaches := (ht _ (source.beside sink) w).approaches (e.course_stays _ tape w)
      apply happroaches.corresponds (ht _ (source'.beside sink) w') (e.course_stays _ tape w') 4
      intro n hn
      obtain ⟨bound, rfl⟩ := Nat.exists_eq_add_of_le' hn
      have hmatch := h.transfersMatch h' sink (source.canPeek w.1) (source'.canPeek w'.1)
      have hexec := Tree.matches_exec hmatch t bound tape hw
      rw [Tree.relocate_id] at hexec
      obtain ⟨hresult, hlast⟩ := Tree.matches_conclude (sameBytes_flush source source' sink) hexec
      rw [show Ending.relocate id = id from funext Ending.relocate_id, Option.map_id_fun,
        id_eq] at hresult
      exact ⟨hresult.symm, hlast⟩
    · exact .of_ends (e.course_stays _ tape w) (e.course_stays _ tape w')
        (hcrash _ (source.beside sink) w) (hcrash _ (source'.beside sink) w') hw
  · exact .of_ends (e.course_stays _ tape w) (e.course_stays _ tape w')
      (he.ends_of_mismatch hl (source.beside sink) w)
      (he.ends_of_mismatch hl (source'.beside sink) w') hw

end Source.Delivers

/-- The three inputs can take each other's place: beside any output, on any tape and in either
engine, a program comes to the same results, tapes and output, with the same bytes left unread, or
goes on for ever with all three. The stream below the buffer may come in any pieces. -/
theorem inputs_interchangeable {text : String} {c : Config} {p : Program} {e : Engine}
    (h : parse text c = .ok p) (he : e.Executes p) {capacity : Nat} (hc : 0 < capacity)
    {bytes : List UInt8} {pieces : List (List UInt8)} (hp : Buffered.EndsOnce pieces)
    (hb : pieces.flatten = bytes) (sink : Sink τ) (tape : Tape) (o : τ) :
    Course.Corresponds (fun w w' => w.1.unread.toList = w'.1.unread ∧ w.2 = w'.2)
      (e.course (Cursor.source.beside sink) tape (.ofBytes bytes.toArray, o))
      (e.course (Buffered.source.beside sink) tape
        (.ofChunks capacity (pieces.map .bytes), o)) ∧
    Course.Corresponds (fun w w' => w.1.unread.toList = w'.1.channel.undelivered ∧ w.2 = w'.2)
      (e.course (Cursor.source.beside sink) tape (.ofBytes bytes.toArray, o))
      (e.course (Delivery.source.beside sink) tape (.ofBytes bytes, o)) := by
  have hcursor : (Cursor.ofBytes bytes.toArray).unread.toList = bytes := by
    rw [Cursor.toList_unread]
    rfl
  have hbuffered : (Buffered.ofChunks capacity (pieces.map .bytes)).Holds bytes :=
    hb ▸ Buffered.holds_ofChunks hc hp
  constructor
  · refine (Cursor.delivers.corresponds Buffered.delivers sink h he tape
      ⟨⟨bytes, hcursor, hbuffered⟩, rfl⟩).mono ?_
    rintro w w' ⟨⟨bytes, hunread, hholds⟩, ho⟩
    exact ⟨hunread.trans hholds.unread_eq.symm, ho⟩
  · refine (Cursor.delivers.corresponds Delivery.delivers sink h he tape
      ⟨⟨bytes, hcursor, Delivery.holds_ofBytes bytes⟩, rfl⟩).mono ?_
    rintro w w' ⟨⟨bytes, hunread, hholds⟩, ho⟩
    exact ⟨hunread.trans hholds.2.symm, ho⟩

/-- A program that echoes its input until it reads a zero, here compiled. The input ends first. -/
theorem inputs_interchangeable_echo :
    ∃ (p : Program) (r : Routine), parse ",[.,]" .standard = .ok p ∧
      Routine.compile p .standard = .ok r ∧
      Course.Corresponds (fun w w' => w.1.unread.toList = w'.1.unread ∧ w.2 = w'.2)
        ((Engine.routine r).course (Cursor.source.beside collecting) (.blank 30000 (by decide))
          (.ofBytes #[104, 105, 33], #[]))
        ((Engine.routine r).course (Buffered.source.beside collecting) (.blank 30000 (by decide))
          (.ofChunks 2 [.bytes [104, 105, 33], .bytes []], #[])) := by
  obtain ⟨p, r, hp, hr, he⟩ := Engine.Executes.exists_echo
  have hends : Buffered.EndsOnce [[104, 105, 33], []] := by simp [Buffered.EndsOnce]
  exact ⟨p, r, hp, hr, (inputs_interchangeable hp he Nat.two_pos hends rfl collecting _ #[]).1⟩

end TapeLang
