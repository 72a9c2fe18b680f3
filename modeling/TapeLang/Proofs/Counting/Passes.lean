import TapeLang.Proofs.Counting.Charts
import TapeLang.Proofs.Tree.Meaning

/-!
# The passes of counted loops

Each pass of a counted loop takes one from a cell that nothing else changes before the loop is left.
So a loop that has been entered is passed through at most as often as its cell said then.

* `Interpreter.passes`: how often a run begins the body of a loop before it leaves the loop.
* `Interpreter.Inside`: what holds inside a loop; `Inside.acts`: each action that stays inside keeps
  it and takes what it has to from the counter.
* `Interpreter.passes_le`: the cell bounds the passes.
* `Interpreter.counted_ends`: programs of counted loops end.
-/

namespace TapeLang

open Site

variable {length : Nat} {k : Nat} {site : Nat → Site length}

namespace Interpreter

variable {σ : Type} {p : Program} {d : Device byteStream σ} {tape : Tape} {s s' : State} {n : Nat}
  {w w' : σ} {base : Nat}

/-! ## Passes -/

/-- In front of the body of the loop at index `k`. -/
def State.begins (k : Nat) (s : State) : Bool :=
  s.phase = .running ∧ s.cursor = k + 1 ∧ s.skip = 0

/-- Inside the loop at index `k`. -/
def State.isIn (k : Nat) (s : State) : Bool := s.loops.contains k

/-- How often a run of `n` actions, from the start of the loop at index `k`, begins the body of this
loop before it leaves the loop. -/
def passes (p : Program) (d : Device byteStream σ) (k n : Nat) (s : State) (w : σ) : Nat :=
  ((observe some (step p) d n s w).tail.takeWhile (State.isIn k)).countP (State.begins k)

/-- The cell that counts the passes of the loop at index `k`. -/
def counter (site : Nat → Site length) (base k : Nat) (s : State) : UInt8 :=
  s.tape.cell (place base (site k).offset)

/-- Inside the loop at index `k`, whose body begins with something left to count. -/
structure Inside (p : Program) (tape : Tape) (site : Nat → Site length) (base k : Nat) (s : State) :
    Prop extends Charted p tape site base s where
  isIn : k ∈ s.loops
  positive : s.cursor = k + 1 → s.skip = 0 → counter site base k s ≠ 0

/-- A run is first seen in the state it is in. -/
theorem takeWhile_observe {f : State → Bool} (h : ¬ f s) (n : Nat) (w : σ) :
    (observe some (step p) d n s w).takeWhile f = [] := by
  cases n with
  | zero => rfl
  | succ n =>
    rw [observe]
    split
    · exact List.takeWhile_cons_of_neg h
    · exact List.takeWhile_cons_of_neg h
    · rfl

namespace Inside

variable (h : Inside p tape site base k s) (hc : Chart p.ops site) (hn : Nested p.ops)

include h

theorem isOpen : k ∈ openAt p.ops s.cursor := h.stacked.mem_loops.mp h.isIn

theorem before : k < s.cursor := (start_of_mem_openAt h.isOpen).1

include hc hn

/-- The body of the loop begins with an addition. -/
theorem first (hcursor : s.cursor = k + 1) : p.ops[s.cursor]? = some (.add 255) := by
  have hopen := h.isOpen
  cases hop : p.ops[s.cursor]? with
  | none =>
    rw [hn.openAt_end hop] at hopen
    cases hopen
  | some op =>
    rw [hcursor] at hop
    rw [hc.first (start_of_mem_openAt hopen).2 hop]

theorem first_of_begins (hbegins : s.begins k) :
    s.phase = .running ∧ p.ops[s.cursor]? = some (.add 255) ∧ s.skip = 0 := by
  obtain ⟨hp, hcursor, hskip⟩ := of_decide_eq_true hbegins
  exact ⟨hp, h.first hc hn hcursor, hskip⟩

/-- An action that stays inside takes one from the counter if it is the first of the body, and else
nothing. -/
theorem counter_eq (ht : Effect p site base s s') (hst : Stacked p s') (hk : k ∈ s'.loops) :
    counter site base k s' = counter site base k s - if s.begins k then 1 else 0 := by
  have hsame (htape : s'.tape = s.tape) (hbegins : ¬ s.begins k) :
      counter site base k s' = counter site base k s - if s.begins k then 1 else 0 := by
    rw [counter, htape, if_neg hbegins, UInt8.sub_zero]
    rfl
  cases ht with
  | wait htape _ _ _ hadds =>
    refine hsame htape fun hbegins => hadds ?_
    obtain ⟨hp, hop, -⟩ := h.first_of_begins hc hn hbegins
    exact ⟨hp, _, hop⟩
  | command hs _ hcursor hloops hlt hadds harrives =>
    have hk' : k ∈ openAt p.ops (s.cursor + 1) := hcursor ▸ hst.mem_loops.mp hk
    have hiff : s.begins k ↔ s.cursor = k + 1 := by
      refine ⟨fun hbegins => (of_decide_eq_true hbegins).2.1, fun hat => decide_eq_true ?_⟩
      exact ⟨hadds _ (h.first hc hn hat), hat, hs⟩
    rw [counter, hc.cell_eq harrives hlt h.isOpen hk']
    simp only [hiff]
    rfl
  | enter hs hop heq =>
    refine hsame (by rw [heq]; rfl) fun hbegins => ?_
    cases hop.symm.trans (h.first_of_begins hc hn hbegins).2.1
  | close hs hop heq =>
    refine hsame ?_ fun hbegins => ?_
    · rw [heq, State.closeLoop]
      split <;> rfl
    · cases hop.symm.trans (h.first_of_begins hc hn hbegins).2.1
  | pass hs hop heq =>
    refine hsame ?_ fun hbegins => hs (h.first_of_begins hc hn hbegins).2.2
    rw [heq]
    exact (tape_cursor_execute_of_skipped hs _).1

/-- The body is begun again only while there is something left to count. -/
theorem positive_of_effect (ht : Effect p site base s s') (hcursor' : s'.cursor = k + 1)
    (hskip' : s'.skip = 0) : counter site base k s' ≠ 0 := by
  have hbefore := h.before
  cases ht with
  | wait htape hcursor _ hskip =>
    rw [counter, htape]
    exact h.positive (hcursor ▸ hcursor') (hskip ▸ hskip')
  | command _ _ hcursor => omega
  | enter _ _ heq =>
    have hcursor : s'.cursor = s.cursor + 1 := by
      rw [heq]
      rfl
    omega
  | pass hs _ heq =>
    have hcursor : s'.cursor = s.cursor + 1 := by
      rw [heq]
      exact (tape_cursor_execute_of_skipped hs _).2
    omega
  | close hs hop heq =>
    subst heq
    rw [State.closeLoop] at hcursor' ⊢
    split
    case isTrue hagain =>
      rw [if_pos hagain] at hcursor'
      obtain ⟨start, outer, hopen, -⟩ := hn.openAt_loopEnd hop
      have hback : s.loops.back? = some start := by
        rw [h.stacked.back?, hopen, List.head?_cons]
      have hstart : s.loops.back?.getD s.cursor + 1 = k + 1 := hcursor'
      rw [hback, Option.getD_some] at hstart
      obtain rfl : start = k := Nat.succ.inj hstart
      have hstands : Stands base (site s.cursor) s.tape :=
        State.stand_of_running hs ▸ h.located
      show s.tape.cell (place base (site start).offset) ≠ 0
      rw [← hc.offset_loopEnd hop hopen, ← hstands.get]
      exact hagain.2
    case isFalse hleave =>
      rw [if_neg hleave] at hcursor'
      have hcursor' : s.cursor + 1 = k + 1 := hcursor'
      omega

theorem acts (ha : Acts (step p) d s w s' w') (hk : k ∈ s'.loops) :
    Inside p tape site base k s' ∧
      counter site base k s' = counter site base k s - if s.begins k then 1 else 0 := by
  obtain ⟨ht, hcharted⟩ := h.toCharted.acts hc hn ha
  exact ⟨⟨hcharted, hk, h.positive_of_effect hc hn ht⟩, h.counter_eq hc hn ht hcharted.stacked hk⟩

/-- Inside a loop no more passes begin than its counter says. -/
theorem countP_le (n : Nat) (w : σ) :
    ((observe some (step p) d n s w).takeWhile (State.isIn k)).countP (State.begins k) ≤
      (counter site base k s).toNat := by
  induction n generalizing s w with
  | zero => exact Nat.zero_le _
  | succ n ih =>
    by_cases hhalts : ∃ r, step p s = .halt r
    · obtain ⟨r, hr⟩ := hhalts
      rw [observe, hr]
      exact Nat.zero_le _
    · obtain ⟨s', w', ha⟩ := exists_acts d w fun r hr => hhalts ⟨r, hr⟩
      have hin : State.isIn k s := Array.contains_iff_mem.mpr h.isIn
      have hbegun : s.begins k → 1 ≤ counter site base k s := fun hbegins => by
        obtain ⟨-, hcursor, hskip⟩ := of_decide_eq_true hbegins
        rw [UInt8.le_iff_toNat_le]
        exact Nat.pos_of_ne_zero fun hzero => h.positive hcursor hskip (UInt8.toNat_inj.mp hzero)
      have hrest : ((observe some (step p) d n s' w').takeWhile (State.isIn k)).countP
          (State.begins k) ≤ (counter site base k s - if s.begins k then 1 else 0).toNat := by
        by_cases hk : k ∈ s'.loops
        · obtain ⟨hinside, hcounter⟩ := h.acts hc hn ha hk
          rw [← hcounter]
          exact ih hinside w'
        · rw [takeWhile_observe fun hin => hk (Array.contains_iff_mem.mp hin)]
          exact Nat.zero_le _
      rw [observe_acts ha, Option.toList_some, List.singleton_append,
        List.takeWhile_cons_of_pos hin, List.countP_cons]
      by_cases hbegins : s.begins k
      · have hone := hbegun hbegins
        rw [if_pos hbegins, UInt8.toNat_sub_of_le _ _ hone, UInt8.toNat_one] at hrest
        rw [UInt8.le_iff_toNat_le, UInt8.toNat_one] at hone
        rw [if_pos hbegins]
        omega
      · rw [if_neg hbegins, UInt8.sub_zero] at hrest
        rw [if_neg hbegins]
        exact hrest

end Inside

/-- A run that enters a loop begins its body as often, at most, as the cell says. -/
theorem passes_le (h : Charted p tape site base s) (hc : Chart p.ops site) (hn : Nested p.ops)
    (hp : s.phase = .running) (hskip : s.skip = 0) (hop : p.ops[s.cursor]? = some .loopStart)
    (n : Nat) (w : σ) : passes p d s.cursor n s w ≤ s.tape.get.toNat := by
  cases n with
  | zero => exact Nat.zero_le _
  | succ n =>
    obtain ⟨i, hi, hstart⟩ : ∃ i, p.instructions[s.cursor]? = some i ∧ i.op = .loopStart := by
      rw [p.getElem?_ops] at hop
      exact Option.map_eq_some_iff.mp hop
    have hstep : step p s = .next s.enterLoop := by
      simp only [step, hp, hi, hstart, State.execute_loopStart]
    have hcell : counter site base s.cursor s.enterLoop = s.tape.get := by
      have hstands : Stands base (site s.cursor) s.tape := State.stand_of_running hskip ▸ h.located
      exact hstands.get.symm
    have hinside : Inside p tape site base s.cursor s.enterLoop := by
      refine ⟨h.next hc hn hstep, Array.mem_push_self, fun _ hrunning hzero => ?_⟩
      rw [hcell] at hzero
      simp only [State.enterLoop, hskip, hzero, and_self, if_true] at hrunning
      omega
    have hle := hinside.countP_le (d := d) hc hn n w
    rw [passes, observe_next hstep, Option.toList_some, List.singleton_append, List.tail_cons,
      ← hcell]
    exact hle

/-! ## Whole runs -/

/-- A program of counted loops comes to its end, or to a read behind the end of the input. -/
theorem exists_ends {source : String} {c : Config} (h : parse source c = .ok p)
    {s last : Site length} (hwalks : Walks s p.ops last) (hs : Stands base s tape)
    (hm : 8 * p.maxDepth ≤ sizeLimit) (hl : tape.length = p.tapeLength) (hd : Willing d) (w : σ) :
    ∃ verdict tape' w', (course (step p) d (start tape) w).Ends ⟨verdict, tape'⟩ w' ∧
      (verdict = .finished ∨ ∃ position, verdict = .failed (.inputExhausted position)) := by
  obtain ⟨t, ht, -⟩ := exists_tree h
  have htracks := tracks ht hm hl d w 256
  have hops : p.ops = t.flatten.map (·.op) := by rw [ht, Program.ops]
  have hcomes : (t.exec d (d .canPeek w).1 256 tape (d .canPeek w).2).Comes
      (Arrives base s tape last) := (hops ▸ hwalks).comes hs hd (Nat.le_refl 256) _
  simp only [Tree.course] at htracks
  generalize t.exec d (d .canPeek w).1 256 tape (d .canPeek w).2 = passage at htracks hcomes
  cases hcomes with
  | @through new world =>
    simp only [Tree.conclude, hd.flush] at htracks
    exact ⟨_, _, _, htracks, .inl rfl⟩
  | exhausted => exact ⟨_, _, _, htracks, .inr ⟨_, rfl⟩⟩

/-- A program whose loops are counted ends, or comes to a read behind the end of the input, for any
tape and whatever is written; and each time it enters a loop, it passes through it 255 times at
most. -/
theorem counted_ends {source : String} {c : Config} (h : parse source c = .ok p)
    (hcounted : Source.IsCounted (c.tapeLength - 1) (Source.commands source.toList))
    (hm : 8 * c.maxDepth ≤ sizeLimit) (hl : tape.length = c.tapeLength) {sink : Sink σ}
    (hsink : sink.Reliable) (w : Cursor × σ) :
    (∃ verdict tape' w',
      (course (step p) (Cursor.source.beside sink) (start tape) w).Ends ⟨verdict, tape'⟩ w' ∧
      (verdict = .finished ∨ ∃ position, verdict = .failed (.inputExhausted position))) ∧
    ∀ n s w', Reaches (step p) (Cursor.source.beside sink) n (start tape) w s w' →
      s.phase = .running → s.skip = 0 → p.ops[s.cursor]? = some .loopStart →
      ∀ m, passes p (Cursor.source.beside sink) s.cursor m s w' ≤ 255 := by
  obtain ⟨last, hwalks⟩ := walks_normalForm c.tapeLength_pos hcounted c.optimisations
  rw [← Source.ops_of_parse h] at hwalks
  have hstands : Stands tape.pointer (Site.start c.tapeLength_pos) tape :=
    ⟨hl, (Nat.mod_eq_of_lt (hl ▸ tape.pointer_lt)).symm⟩
  refine ⟨exists_ends h hwalks hstands (maxDepth_of_parse h ▸ hm)
    (hl.trans (tapeLength_of_parse h).symm) hsink.willing w, ?_⟩
  intro n s w' hr hp hskip hop m
  obtain ⟨site, hstart, hsite⟩ := exists_chart hwalks
  have hc : Chart p.ops site := ⟨by rw [hstart]; rfl, hsite⟩
  have hn := (wellFormed_of_parse h).isNested
  have hcharted := Charted.reaches hc hn (hstart ▸ hstands) hr
  have hle := passes_le (d := Cursor.source.beside sink) hcharted hc hn hp hskip hop m w'
  have := s.tape.get.toNat_lt
  omega

/-- Two loops, the inner one to be passed through as often as is read. -/
theorem counted_ends_nested :
    ∃ p : Program, parse ",[->,<>[->+<]<]" ⟨3, 3, .all, by decide, by decide⟩ = .ok p ∧
      (∃ verdict tape' w', (course (step p) (Cursor.source.beside collecting)
        (start (.blank 3 (by decide))) (.ofBytes #[2, 1], #[])).Ends ⟨verdict, tape'⟩ w' ∧
        (verdict = .finished ∨ ∃ position, verdict = .failed (.inputExhausted position))) ∧
      ∀ n s w', Reaches (step p) (Cursor.source.beside collecting) n
        (start (.blank 3 (by decide))) (.ofBytes #[2, 1], #[]) s w' →
        s.phase = .running → s.skip = 0 → p.ops[s.cursor]? = some .loopStart →
        ∀ m, passes p (Cursor.source.beside collecting) s.cursor m s w' ≤ 255 := by
  obtain ⟨p, hp⟩ : ∃ p, parse ",[->,<>[->+<]<]" ⟨3, 3, .all, by decide, by decide⟩ = .ok p :=
    ⟨_, rfl⟩
  have hinner : Source.IsBody 1 [ '>', '+', '<'] :=
    @Source.IsBody.plain 1 1 [ '+'] [] (by decide) (by decide)
      (List.forall_mem_singleton.mpr rfl) .nil
  have hbody : Source.IsBody 2 [ '>', ',', '<', '>', '[', '-', '>', '+', '<', ']', '<'] :=
    @Source.IsBody.plain 2 1 [ ','] _ (by decide) (by decide) (List.forall_mem_singleton.mpr rfl)
      (@Source.IsBody.loop 2 1 _ [] (by decide) (by decide) hinner .nil)
  have hcounted : Source.IsCounted 2 (Source.commands ",[->,<>[->+<]<]".toList) :=
    .command (by decide) (.loop hbody .nil)
  exact ⟨p, hp, counted_ends hp hcounted (by decide) rfl reliable_collecting _⟩

/-- With a limit of 2^60 nested loops even a counted loop ends in a crash. -/
theorem counted_crashes :
    ∃ (p : Program) (tape' : Tape) (w' : Cursor × Array UInt8),
      parse "+[->+<]" ⟨30000, 2 ^ 60, .all, by decide, by decide⟩ = .ok p ∧
      Source.IsCounted 29999 (Source.commands "+[->+<]".toList) ∧
      (course (step p) (Cursor.source.beside collecting) (start (.blank 30000 (by decide)))
        (.ofBytes #[], #[])).Ends ⟨.crashed .capacityOverflow, tape'⟩ w' := by
  obtain ⟨p, hp⟩ : ∃ p, parse "+[->+<]" ⟨30000, 2 ^ 60, .all, by decide, by decide⟩ = .ok p :=
    ⟨_, rfl⟩
  have hbody : Source.IsBody 29999 [ '>', '+', '<'] :=
    @Source.IsBody.plain 29999 1 [ '+'] [] (by decide) (by decide)
      (List.forall_mem_singleton.mpr rfl) .nil
  have hdepth : p.maxDepth = 2 ^ 60 := maxDepth_of_parse hp
  have hdeep : sizeLimit < 8 * p.maxDepth := by
    rw [hdepth]
    decide
  have hlength : (Tape.blank 30000 (by decide)).length = p.tapeLength :=
    (tapeLength_of_parse hp).symm
  exact ⟨p, _, _, hp, .command (by decide) (.loop hbody .nil), 2,
    congrFun (course_of_deep hdeep hlength _ _) 2⟩

end Interpreter

end TapeLang
