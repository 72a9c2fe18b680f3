import TapeLang.Proofs.Matching
import TapeLang.Proofs.Trace
import TapeLang.Stream.Cursor

/-!
# The loops that the interpreter keeps

The interpreter has no table of matching brackets. The indices that it keeps are those of the loops
around the instruction it stands at, and a loop that it skips is one of them: since it came to the
start of that loop with a zero cell, nothing has happened to the tape or to the streams.

* `Interpreter.Stacked`: the kept indices are the open loops; each action keeps that.
* `Interpreter.Untouched`: nothing has happened since a loop was reached.
* `Interpreter.LoopInvariant`, `Interpreter.loopInvariant`: what holds in front of each instruction.
-/

namespace TapeLang

theorem Program.getElem?_ops (p : Program) (i : Nat) :
    p.ops[i]? = p.instructions[i]?.map (·.op) := by
  rw [ops, List.getElem?_map, Array.getElem?_toList]

namespace Interpreter

variable {σ : Type} {p : Program} {tape : Tape} {s s' : State}

/-! ## One action -/

/-- The kept indices are those of the open loops, and a skipped loop is one of them. -/
structure Stacked (p : Program) (s : State) : Prop where
  loops : s.loops.toList.reverse = openAt p.ops s.cursor
  skip : s.skip ≤ s.loops.size
  opening : s.phase = .opening → s.skip = 0

/-- The interpreter acts by itself only when it executes an instruction. -/
theorem exists_of_next (hs : step p s = .next s') : s.phase = .running ∧
    ∃ i, p.instructions[s.cursor]? = some i ∧ s' = s.execute i.op := by
  unfold step at hs
  split at hs
  case h_1 => split at hs <;> cases hs
  case h_2 hp =>
    split at hs
    case h_1 i hi =>
      cases hs
      exact ⟨hp, i, hi, rfl⟩
    case h_2 => cases hs
  case h_3 => cases hs
  case h_4 => cases hs

namespace Stacked

theorem start (p : Program) (tape : Tape) : Stacked p (start tape) :=
  ⟨rfl, Nat.le_refl 0, fun _ => rfl⟩

/-- The innermost loop is on top. -/
theorem back? (h : Stacked p s) : s.loops.back? = (openAt p.ops s.cursor).head? := by
  rw [← h.loops, List.head?_reverse, Array.getLast?_toList]

theorem mem_loops (h : Stacked p s) {k : Nat} : k ∈ s.loops ↔ k ∈ openAt p.ops s.cursor := by
  rw [← h.loops, List.mem_reverse, Array.mem_toList_iff]

theorem enterLoop (h : Stacked p s) (hop : p.ops[s.cursor]? = some .loopStart)
    (hp : s.phase = .running) : Stacked p s.enterLoop where
  loops := by
    show (s.loops.push s.cursor).toList.reverse = openAt p.ops (s.cursor + 1)
    rw [openAt_loopStart hop, ← h.loops, Array.toList_push, List.reverse_append]
    rfl
  skip := by
    show (if s.skip = 0 ∧ s.tape.get = 0 then s.loops.size + 1 else s.skip) ≤ _
    have := h.skip
    rw [State.enterLoop, Array.size_push]
    split <;> omega
  opening hopening := by cases hp.symm.trans hopening

theorem leaveLoop (h : Stacked p s) (hop : p.ops[s.cursor]? = some .loopEnd)
    (hp : s.phase = .running) : Stacked p s.leaveLoop where
  loops := by
    show s.loops.pop.toList.reverse = openAt p.ops (s.cursor + 1)
    rw [openAt_loopEnd hop, ← h.loops, Array.toList_pop, List.tail_reverse]
  skip := by
    show (if s.skip = s.loops.size then 0 else s.skip) ≤ s.loops.pop.size
    have := h.skip
    rw [Array.size_pop]
    split <;> omega
  opening hopening := by cases hp.symm.trans hopening

/-- Back to the start of the innermost loop, which stays open. -/
theorem closeLoop (h : Stacked p s) (hn : Nested p.ops) (hop : p.ops[s.cursor]? = some .loopEnd)
    (hp : s.phase = .running) : Stacked p s.closeLoop := by
  unfold State.closeLoop
  split
  case isTrue =>
    obtain ⟨k, rest, hk, hcloses⟩ := hn.openAt_loopEnd hop
    have hback : s.loops.back? = some k := by
      rw [h.back?, hk]
      rfl
    refine ⟨?_, h.skip, fun hopening => by cases hp.symm.trans hopening⟩
    show s.loops.toList.reverse = openAt p.ops (s.loops.back?.getD s.cursor + 1)
    rw [h.loops, hk, hback, Option.getD_some, openAt_loopStart hcloses.opening,
      (openAt_of_cons hk).2.2]
  case isFalse => exact h.leaveLoop hop hp

/-- On to the next instruction from one that is no bracket. -/
theorem moveOn (h : Stacked p s) {c : Command} (hop : p.ops[s.cursor]? = some c.op)
    (hloops : s'.loops = s.loops) (hskip : s'.skip = s.skip) (hcursor : s'.cursor = s.cursor + 1)
    (hp : s'.phase ≠ .opening) : Stacked p s' where
  loops := by
    rw [hloops, h.loops, hcursor, openAt_other]
    · rw [hop]
      cases c <;> nofun
    · rw [hop]
      cases c <;> nofun
  skip := by
    rw [hskip, hloops]
    exact h.skip
  opening hopening := absurd hopening hp

/-- Still at the same instruction, in another phase. -/
theorem stay (h : Stacked p s) (hloops : s'.loops = s.loops) (hskip : s'.skip = s.skip)
    (hcursor : s'.cursor = s.cursor) (hp : s'.phase ≠ .opening) : Stacked p s' where
  loops := by rw [hloops, h.loops, hcursor]
  skip := by
    rw [hskip, hloops]
    exact h.skip
  opening hopening := absurd hopening hp

theorem execute (h : Stacked p s) (hn : Nested p.ops) {op : Op}
    (hop : p.ops[s.cursor]? = some op) (hp : s.phase = .running) : Stacked p (s.execute op) := by
  rcases op.bracket_or_command with rfl | rfl | ⟨c, rfl⟩
  · exact h.enterLoop hop hp
  · exact h.closeLoop hn hop hp
  · by_cases hs : s.skip = 0
    · rw [State.execute_of_running hs]
      cases c with
      | move n | add n | reset =>
        refine h.moveOn hop rfl rfl rfl ?_
        show s.phase ≠ _
        rw [hp]
        nofun
      | read | write => exact h.stay rfl rfl rfl nofun
    · rw [State.execute_of_skip hs]
      refine h.moveOn hop rfl rfl rfl ?_
      show s.phase ≠ _
      rw [hp]
      nofun

theorem afterTransfer (h : Stacked p s) {c : Command} (hop : p.ops[s.cursor]? = some c.op)
    (next : Transfer.Next) : Stacked p (s.afterTransfer next) := by
  cases next with
  | stage t => exact h.stay rfl rfl rfl nofun
  | done outcome =>
    cases outcome with
    | received byte => exact h.moveOn hop rfl rfl rfl nofun
    | sent => exact h.moveOn hop rfl rfl rfl nofun
    | failed e => exact h.stay rfl rfl rfl nofun

theorem next (h : Stacked p s) (hn : Nested p.ops) (hs : step p s = .next s') : Stacked p s' := by
  obtain ⟨hp, i, hi, rfl⟩ := exists_of_next hs
  exact h.execute hn (by rw [p.getElem?_ops, hi]; rfl) hp

theorem ask (h : Stacked p s) (hr : Regular p tape s) {request : ByteRequest}
    {resume : request.Reply → State} (hs : step p s = .ask request resume)
    (reply : request.Reply) : Stacked p (resume reply) := by
  unfold step at hs
  split at hs
  case h_1 =>
    split at hs
    case isTrue => cases hs
    case isFalse =>
      cases hs
      unfold opened
      split <;> exact h.stay rfl rfl rfl nofun
  case h_2 =>
    split at hs
    case h_1 => cases hs
    case h_2 =>
      cases hs
      cases reply <;> exact h.stay rfl rfl rfl nofun
  case h_3 t ht =>
    cases hs
    obtain ⟨position, hhere⟩ := (hr.transfer t ht).here
    have hop : p.ops[s.cursor]? = some t.op := by rw [p.getElem?_ops, hhere]; rfl
    obtain ⟨c, hc⟩ : ∃ c : Command, c.op = t.op := by
      unfold Transfer.op
      split
      · exact ⟨.read, rfl⟩
      · exact ⟨.write, rfl⟩
    exact h.afterTransfer (hop.trans (congrArg some hc.symm)) _
  case h_4 => cases hs

/-- It holds throughout a run. -/
theorem reaches (hn : Nested p.ops) {d : Device byteStream σ} {n : Nat} {w w' : σ}
    (h : Reaches (step p) d n (Interpreter.start tape) w s w') : Stacked p s :=
  (h.keeps (P := fun s => Regular p tape s ∧ Stacked p s)
    (fun _ _ hs hnext => ⟨hs.1.next hnext, hs.2.next hn hnext⟩)
    (fun _ _ _ reply hs hask => ⟨hs.1.ask hask reply, hs.2.ask hs.1 hask reply⟩)
    ⟨.start p tape, .start p tape⟩).2

end Stacked

/-! ## Loops that are skipped -/

section Skipping

variable {d : Device byteStream σ} {n : Nat} {w w' : σ} {k : Nat}

/-- After `n` actions, in state `s`: the run has come to the start of the loop at index `k` with a
zero cell, and since then neither the tape nor the surroundings have changed. -/
def Untouched (p : Program) (d : Device byteStream σ) (tape : Tape) (w : σ) (n : Nat) (s : State)
    (w' : σ) (k : Nat) : Prop :=
  ∃ m s₀, m < n ∧ Reaches (step p) d m (start tape) w s₀ w' ∧ s₀.phase = .running ∧
    s₀.cursor = k ∧ p.ops[k]? = some .loopStart ∧ s₀.skip = 0 ∧ s₀.tape.get = 0 ∧
    ∀ i, m ≤ i → i ≤ n → ∃ t, Reaches (step p) d i (start tape) w t w' ∧ t.tape = s.tape

/-- A skipped instruction leaves everything as it is. -/
theorem Untouched.succ (h : Untouched p d tape w n s w' k)
    (hr : Reaches (step p) d (n + 1) (start tape) w s' w') (ht : s'.tape = s.tape) :
    Untouched p d tape w (n + 1) s' w' k := by
  obtain ⟨m, s₀, hm, hs₀, hp, hcursor, hop, hskip, hcell, hall⟩ := h
  refine ⟨m, s₀, Nat.lt_succ_of_lt hm, hs₀, hp, hcursor, hop, hskip, hcell, fun i hmi hin => ?_⟩
  by_cases hi : i ≤ n
  · obtain ⟨t, hreach, htape⟩ := hall i hmi hi
    exact ⟨t, hreach, htape.trans ht.symm⟩
  · obtain rfl : i = n + 1 := by omega
    exact ⟨s', hr, rfl⟩

/-- A loop begins to be skipped where it is reached with a zero cell. -/
theorem skip_execute (hs : s.skip = 0) {op : Op} (hskip : (s.execute op).skip ≠ 0) :
    op = .loopStart ∧ s.tape.get = 0 ∧ (s.execute op).skip = s.loops.size + 1 := by
  rcases op.bracket_or_command with rfl | rfl | ⟨c, rfl⟩
  · rw [State.execute_loopStart] at hskip ⊢
    simp only [State.enterLoop, hs, true_and] at hskip ⊢
    split at hskip
    case isTrue hz => exact ⟨hz, if_pos hz⟩
    case isFalse => exact absurd rfl hskip
  · refine absurd ?_ hskip
    rw [State.execute_loopEnd, State.closeLoop]
    split
    · exact hs
    · show (if s.skip = s.loops.size then 0 else s.skip) = 0
      rw [hs, ite_self]
  · refine absurd ?_ hskip
    rw [State.execute_of_running hs]
    cases c <;> exact hs

/-- While a loop is skipped, nothing changes but the place in the program. -/
theorem execute_of_skipping (hs : s.skip ≠ 0) (hsize : s.skip ≤ s.loops.size) {op : Op}
    (hskip : (s.execute op).skip ≠ 0) :
    (s.execute op).tape = s.tape ∧ (s.execute op).skip = s.skip ∧
      (s.execute op).loops[s.skip - 1]? = s.loops[s.skip - 1]? := by
  rcases op.bracket_or_command with rfl | rfl | ⟨c, rfl⟩
  · refine ⟨rfl, ?_, ?_⟩
    · rw [State.execute_loopStart]
      simp only [State.enterLoop, hs, false_and, if_false]
    · show (s.loops.push s.cursor)[s.skip - 1]? = _
      rw [Array.getElem?_push, if_neg (by omega)]
  · rw [State.execute_loopEnd, State.closeLoop, if_neg fun h => hs h.1] at hskip ⊢
    have hleave : s.leaveLoop.skip = if s.skip = s.loops.size then 0 else s.skip := rfl
    have hne : s.skip ≠ s.loops.size := by
      intro heq
      rw [hleave, if_pos heq] at hskip
      exact hskip rfl
    refine ⟨rfl, by rw [hleave, if_neg hne], ?_⟩
    show s.loops.pop[s.skip - 1]? = _
    rw [Array.getElem?_pop, if_pos (by omega)]
  · rw [State.execute_of_skip hs]
    exact ⟨rfl, rfl, rfl⟩

theorem skip_afterTransfer (s : State) (next : Transfer.Next) :
    (s.afterTransfer next).skip = s.skip := by
  rcases next with t | outcome
  · rfl
  · cases outcome <;> rfl

/-- Behind a request nothing is skipped. -/
theorem skip_of_ask (h : Stacked p s) (hr : Regular p tape s) {request : ByteRequest}
    {resume : request.Reply → State} (hs : step p s = .ask request resume)
    (reply : request.Reply) (hp : (resume reply).phase = .running) : (resume reply).skip = 0 := by
  unfold step at hs
  split at hs
  case h_1 hopening =>
    split at hs
    case isTrue => cases hs
    case isFalse =>
      cases hs
      unfold opened at hp ⊢
      split
      · exact h.opening hopening
      · exact h.opening hopening
  case h_2 =>
    split at hs
    case h_1 => cases hs
    case h_2 =>
      cases hs
      cases reply <;> cases hp
  case h_3 t ht =>
    cases hs
    exact (skip_afterTransfer s _).trans (hr.transfer t ht).unskipped
  case h_4 => cases hs

/-- Wherever a loop is skipped, nothing has happened since its start. -/
theorem untouched (hn : Nested p.ops) (h : Reaches (step p) d n (start tape) w s w')
    (hp : s.phase = .running) (hskip : s.skip ≠ 0) :
    ∃ k, s.loops[s.skip - 1]? = some k ∧ Untouched p d tape w n s w' k := by
  induction n generalizing s w' with
  | zero =>
    cases h
    cases hp
  | succ n ih =>
    obtain ⟨t, u, ht, hlast⟩ := h.exists_last
    have hstacked := Stacked.reaches hn ht
    cases hlast with
    | next hs =>
      obtain ⟨hphase, i, hi, rfl⟩ := exists_of_next hs
      by_cases hzero : t.skip = 0
      · obtain ⟨hop, hcell, heq⟩ := skip_execute hzero hskip
        rw [heq, hop, Nat.add_sub_cancel]
        refine ⟨t.cursor, Array.getElem?_push_size, n, t, Nat.lt_succ_self n, ht, hphase, rfl, ?_,
          hzero, hcell, fun j hnj hjn => ?_⟩
        · rw [p.getElem?_ops, hi, ← hop]
          rfl
        · have htape : (t.execute i.op).tape = t.tape := by
            rw [hop]
            rfl
          rw [← hop]
          rcases Nat.lt_or_eq_of_le hjn with hjn | rfl
          · obtain rfl := Nat.le_antisymm (Nat.le_of_lt_succ hjn) hnj
            exact ⟨t, ht, htape.symm⟩
          · exact ⟨_, h, rfl⟩
      · obtain ⟨htape, heq, hloops⟩ := execute_of_skipping hzero hstacked.skip hskip
        obtain ⟨k, hk, huntouched⟩ := ih ht hphase hzero
        exact ⟨k, by rw [heq, hloops, hk], huntouched.succ h htape⟩
    | ask hs =>
      exact absurd (skip_of_ask hstacked (Regular.reaches ht) hs _ hp) hskip

end Skipping

/-! ## In front of each instruction -/

/-- What holds of the state `s` of a run in front of an instruction, or at the end of the program,
after `n` actions. -/
structure LoopInvariant {σ : Type} (p : Program) (d : Device byteStream σ) (tape : Tape) (w : σ)
    (n : Nat) (s : State) (w' : σ) : Prop where
  /-- The outermost loop comes first. -/
  sorted : s.loops.toList.Pairwise (· < ·)
  /-- The instruction is in the body of each loop that is kept, or is its end. -/
  around : ∀ k, k ∈ s.loops ↔ ∃ m, Closes p.ops k m ∧ k < s.cursor ∧ s.cursor ≤ m
  depth : s.loops.size < p.maxDepth
  skip : s.skip = 0 ∨ 1 ≤ s.skip ∧ s.skip ≤ s.loops.size
  skipping : s.skip ≠ 0 → ∃ k, s.loops[s.skip - 1]? = some k ∧ Untouched p d tape w n s w' k ∧
    ∃ m, Closes p.ops k m ∧ k < s.cursor ∧ s.cursor ≤ m
  top : p.ops[s.cursor]? = some .loopEnd → ∃ k, s.loops.back? = some k ∧ Closes p.ops k s.cursor
  pointer : s.tape.pointer < p.tapeLength
  done : p.ops[s.cursor]? = none → s.loops = #[] ∧ s.skip = 0

/-- In front of each instruction the interpreter is in the loops that it keeps, in just these, and a
loop that it skips has been met with a zero cell, with nothing done since. -/
theorem loopInvariant {source : String} {c : Config} (h : parse source c = .ok p)
    (d : Device byteStream σ) {n : Nat} (w : σ) {w' : σ × Array (Event byteStream)}
    (hr : Reaches (step p) d.logged n (start tape) (w, #[]) s w') (hp : s.phase = .running) :
    LoopInvariant p d.logged tape (w, #[]) n s w' := by
  have hwf := wellFormed_of_parse h
  have hn := hwf.isNested
  have hstacked := Stacked.reaches hn hr
  have hregular := Regular.reaches hr
  have hsize : s.loops.size = (openAt p.ops s.cursor).length := by
    rw [← hstacked.loops, List.length_reverse, Array.length_toList]
  have hmem (k : Nat) : k ∈ s.loops ↔ ∃ m, Closes p.ops k m ∧ k < s.cursor ∧ s.cursor ≤ m := by
    rw [← hn.mem_openAt, ← hstacked.loops, List.mem_reverse, Array.mem_toList_iff]
  refine ⟨?_, hmem, ?_, ?_, fun hskip => ?_, fun hop => ?_, ?_, fun hop => ?_⟩
  · rw [← List.pairwise_reverse, hstacked.loops]
    exact hn.openAt_sorted s.cursor
  · have hdepth := (hwf.nested _ (List.take_prefix s.cursor p.ops)).2
    have hlength := hn.length_openAt s.cursor
    rw [depthAt] at hlength
    rw [maxDepth_of_parse h]
    omega
  · have := hstacked.skip
    omega
  · obtain ⟨k, hk, huntouched⟩ := untouched hn hr hp hskip
    exact ⟨k, hk, huntouched, (hmem k).mp (Array.mem_of_getElem? hk)⟩
  · obtain ⟨k, rest, hk, hcloses⟩ := hn.openAt_loopEnd hop
    exact ⟨k, by rw [hstacked.back?, hk, List.head?_cons], hcloses⟩
  · have hlength := hregular.length.trans (hregular.fits.resolve_left (by simp [hp]))
    rw [← hlength]
    exact s.tape.pointer_lt
  · have hempty : s.loops.size = 0 := by rw [hsize, hn.openAt_end hop, List.length_nil]
    have := hstacked.skip
    exact ⟨Array.size_eq_zero_iff.mp hempty, by omega⟩

/-- In a loop inside of one that is skipped. -/
theorem loopInvariant_skipping :
    ∃ (p : Program) (s : State) (w' : (Cursor × Array UInt8) × Array (Event byteStream)),
      parse "[[]]" ⟨3, 5, .all, by decide, by decide⟩ = .ok p ∧
      Reaches (step p) (Cursor.source.beside collecting).logged 3 (start (.blank 3 (by decide)))
        ((.ofBytes #[], #[]), #[]) s w' ∧
      s.cursor = 2 ∧ s.skip = 1 ∧ s.loops = #[0, 1] ∧
      LoopInvariant p (Cursor.source.beside collecting).logged (.blank 3 (by decide))
        ((.ofBytes #[], #[]), #[]) 3 s w' := by
  obtain ⟨p, hp, hops⟩ : ∃ p : Program,
      parse "[[]]" ⟨3, 5, .all, by decide, by decide⟩ = .ok p ∧
      p = ⟨#[⟨.loopStart, some ⟨0, 0⟩⟩, ⟨.loopStart, some ⟨1, 1⟩⟩, ⟨.loopEnd, some ⟨2, 2⟩⟩,
        ⟨.loopEnd, some ⟨3, 3⟩⟩], 3, 5, by decide⟩ := ⟨_, rfl, by decide +kernel⟩
  have hr : Reaches (step p) (Cursor.source.beside collecting).logged 3
      (start (.blank 3 (by decide))) ((.ofBytes #[], #[]), #[])
      ⟨.running, .blank 3 (by decide), 2, #[0, 1], 1, true⟩
      ((.ofBytes #[], #[]), #[⟨.canPeek, true⟩]) := by
    rw [hops]
    rfl
  exact ⟨p, _, _, hp, hr, rfl, rfl, rfl, loopInvariant hp _ _ hr rfl⟩

end Interpreter

end TapeLang
