import TapeLang.Proofs.Counting.Runs
import TapeLang.Proofs.LoopStack

/-!
# The interpreter and the sites of a program

At each instruction of a run the pointer is where it is known to be. While a loop is skipped this is
said of the start of that loop, and behind the end of a loop it is the same whether the loop has been
skipped or left.

* `Chart`: what is known in front of the instruction at each index.
* `Interpreter.Effect`: what an action of the interpreter can do.
* `Interpreter.Charted`: the pointer is where the chart says; `Charted.reaches`: throughout a run.
-/

namespace TapeLang

open Site

variable {length : Nat} {ops : List Op} {op : Op} {i k : Nat} {site : Nat → Site length}

/-! ## Sites by index -/

/-- What is known in front of the operation at each index. -/
structure Chart (ops : List Op) (site : Nat → Site length) : Prop where
  outside : (site 0).counters = []
  step : ∀ i op, ops[i]? = some op → Step (site i) op (site (i + 1))

theorem exists_chart {s last : Site length} (h : Walks s ops last) :
    ∃ site : Nat → Site length, site 0 = s ∧
      ∀ i op, ops[i]? = some op → Step (site i) op (site (i + 1)) := by
  induction h with
  | nil s => exact ⟨fun _ => s, rfl, nofun⟩
  | @cons s s₁ last op ops hstep _ ih =>
    obtain ⟨site, rfl, hsite⟩ := ih
    refine ⟨fun i => i.casesOn s site, rfl, fun i op' hop => ?_⟩
    cases i with
    | zero =>
      cases hop
      exact hstep
    | succ i => exact hsite i op' hop

namespace Chart

/-- The counters are those of the open loops. -/
theorem counters (h : Chart ops site) (hi : i ≤ ops.length) :
    (site i).counters = (openAt ops i).map fun k => (site k).offset := by
  induction i with
  | zero => exact h.outside
  | succ i ih =>
    have hopen := ih (Nat.le_of_succ_le hi)
    obtain ⟨op, hop⟩ : ∃ op, ops[i]? = some op := ⟨_, List.getElem?_eq_getElem hi⟩
    have hstep := h.step i op hop
    generalize hs' : site (i + 1) = s' at hstep
    generalize hs : site i = s at hstep hopen
    -- behind anything but a bracket the open loops are the same
    have hother (hstart : op ≠ .loopStart) (hend : op ≠ .loopEnd) :
        openAt ops (i + 1) = openAt ops i :=
      openAt_other (by rw [hop]; exact fun he => hstart (Option.some.inj he))
        (by rw [hop]; exact fun he => hend (Option.some.inj he))
    cases hstep with
    | move | take | write =>
      rw [hother nofun nofun]
      exact hopen
    | change hchanges =>
      rw [hother (by rintro rfl; cases hchanges) (by rintro rfl; cases hchanges)]
      exact hopen
    | loopStart =>
      rw [openAt_loopStart hop, List.map_cons, ← hopen, hs]
      rfl
    | loopEnd hfresh hc =>
      rw [hopen] at hc
      rw [openAt_loopEnd hop, List.map_tail, hc]
      rfl

/-- A loop ends at its counter. -/
theorem offset_loopEnd (h : Chart ops site) (hop : ops[i]? = some .loopEnd) {outer : List Nat}
    (hopen : openAt ops i = k :: outer) : (site i).offset = (site k).offset := by
  have hcounters := h.counters (Nat.le_of_lt (List.getElem?_eq_some_iff.mp hop).1)
  rw [hopen, List.map_cons] at hcounters
  have hstep := h.step i _ hop
  generalize site (i + 1) = s' at hstep
  cases hstep with
  | change hchanges => cases hchanges
  | loopEnd _ hc => exact (List.cons.inj (hc.symm.trans hcounters)).1

theorem offset_closed (h : Chart ops site) (hop : ops[i]? = some .loopEnd) :
    (site (i + 1)).offset = (site i).offset :=
  (h.step i _ hop).offset rfl

/-- A loop starts at a cell that does not count yet. -/
theorem opened (h : Chart ops site) (hop : ops[k]? = some .loopStart) :
    (site k).offset ∉ (site k).counters ∧ site (k + 1) = (site k).opened := by
  have hstep := h.step k _ hop
  generalize site (k + 1) = s' at hstep
  cases hstep with
  | change hchanges => cases hchanges
  | loopStart hs => exact ⟨hs, rfl⟩

/-- Only behind the start of a loop something is owed. -/
theorem exists_of_fresh (h : Chart ops site) (hi : i ≤ ops.length)
    (hfresh : (site i).fresh = true) : ∃ k, i = k + 1 ∧ ops[k]? = some .loopStart := by
  cases i with
  | zero =>
    have hmem := (site 0).mem_of_fresh hfresh
    rw [h.outside] at hmem
    cases hmem
  | succ k =>
    obtain ⟨op, hop⟩ : ∃ op, ops[k]? = some op := ⟨_, List.getElem?_eq_getElem hi⟩
    have hstep := h.step k op hop
    generalize site (k + 1) = s' at hstep hfresh
    cases hstep with
    | loopStart => exact ⟨k, rfl, hop⟩
    | change _ hs => cases hfresh.symm.trans (fresh_of_not_mem hs)
    | write hs => cases hfresh.symm.trans hs
    | move | take | loopEnd => cases hfresh

/-- Only the first operation of the loop at index `k` takes from its counter. -/
theorem owed_eq (h : Chart ops site) (hi : i ≤ ops.length) (hk : k ∈ openAt ops i) :
    (site i).owed (site k).offset = if i = k + 1 then 1 else 0 := by
  have hopening := (start_of_mem_openAt hk).2
  split
  case isTrue heq =>
    rw [heq, (h.opened hopening).2]
    exact if_pos ⟨rfl, rfl⟩
  case isFalse hne =>
    refine if_neg fun ⟨hfresh, hoffset⟩ => ?_
    obtain ⟨inner, rfl, hinner⟩ := h.exists_of_fresh hi hfresh
    obtain ⟨hfree, hopened⟩ := h.opened hinner
    rw [openAt_loopStart hinner] at hk
    rcases List.mem_cons.mp hk with rfl | hk
    · exact hne rfl
    · rw [hopened] at hoffset
      refine hfree ?_
      rw [h.counters (Nat.le_of_succ_le hi)]
      exact List.mem_map.mpr ⟨k, hk, hoffset⟩

/-- A counted loop first takes one from its cell. -/
theorem first (h : Chart ops site) (hop : ops[k]? = some .loopStart)
    (hnext : ops[k + 1]? = some op) : op = .add 255 := by
  have hstep := h.step (k + 1) op hnext
  rw [(h.opened hop).2] at hstep
  exact (hstep.of_fresh rfl).1

variable {base : Nat} {tape new : Tape}

/-- Between two neighbouring instructions of a loop only the first one takes from its counter. -/
theorem cell_eq (h : Chart ops site) (ha : Arrives base (site i) tape (site (i + 1)) new)
    (hi : i + 1 ≤ ops.length) (hk : k ∈ openAt ops i) (hk' : k ∈ openAt ops (i + 1)) :
    new.cell (place base (site k).offset) =
      tape.cell (place base (site k).offset) - if i = k + 1 then 1 else 0 := by
  have hlt := (start_of_mem_openAt hk).1
  have hmem : (site k).offset ∈ (site i).counters := by
    rw [h.counters (Nat.le_of_succ_le hi)]
    exact List.mem_map_of_mem hk
  have hworth := ha.worth _ hmem
  rw [worth, worth, h.owed_eq hi hk', h.owed_eq (Nat.le_of_succ_le hi) hk,
    if_neg (show i + 1 ≠ k + 1 by omega), UInt8.sub_zero] at hworth
  exact hworth

end Chart

namespace Interpreter

variable {σ : Type} {p : Program} {d : Device byteStream σ} {tape : Tape} {s s' : State} {n : Nat}
  {w w' : σ} {base : Nat}

/-! ## Where the pointer is -/

/-- The index whose site the pointer is at: that of the current instruction, or of the start of the
loop that is skipped. -/
def State.stand (s : State) : Nat :=
  if s.skip = 0 then s.cursor else s.loops[s.skip - 1]?.getD s.cursor

/-- The pointer is where the chart says. -/
def Located (site : Nat → Site length) (base : Nat) (s : State) : Prop :=
  Stands base (site s.stand) s.tape

theorem State.stand_of_running (h : s.skip = 0) : s.stand = s.cursor := if_pos h

namespace Located

theorem of_eq (h : Located site base s) (hstand : s'.stand = s.stand) (htape : s'.tape = s.tape) :
    Located site base s' := by
  rw [Located, hstand, htape]
  exact h

/-- The offset is the same, and nothing is skipped. -/
theorem of_offset (h : Located site base s) (hs : s.skip = 0) (hs' : s'.skip = 0)
    (htape : s'.tape = s.tape) (hoffset : (site s'.cursor).offset = (site s.cursor).offset) :
    Located site base s' := by
  rw [Located, State.stand_of_running hs] at h
  rw [Located, State.stand_of_running hs', htape]
  exact ⟨h.length, hoffset ▸ h.pointer⟩

/-- A command that is not skipped leads on to the next site. -/
theorem arrives (h : Located site base s) (hc : Chart p.ops site) (hskip : s.skip = 0)
    {c : Command} (hop : p.ops[s.cursor]? = some c.op) (hnow : c ≠ .read ∧ c ≠ .write) :
    Arrives base (site s.cursor) s.tape (site (s.cursor + 1)) (s.perform c).tape := by
  have hstep := hc.step _ _ hop
  have hstands : Stands base (site s.cursor) s.tape := State.stand_of_running hskip ▸ h
  cases c with
  | move n => exact hstep.arrives_move hstands
  | add n => exact hstep.arrives_add hstands
  | reset => exact hstep.arrives_reset hstands
  | read => exact absurd rfl hnow.1
  | write => exact absurd rfl hnow.2

end Located

/-! ## One action -/

/-- The interpreter is about to add to a cell. -/
def State.Adds (p : Program) (s : State) : Prop :=
  s.phase = .running ∧ ∃ n, p.ops[s.cursor]? = some (.add n)

/-- What an action can do: nothing to the tape at the same place, a command that is not skipped, a
bracket that is not skipped, or a skipped instruction. -/
inductive Effect (p : Program) (site : Nat → Site length) (base : Nat) (s s' : State) : Prop
  | wait (htape : s'.tape = s.tape) (hcursor : s'.cursor = s.cursor) (hloops : s'.loops = s.loops)
      (hskip : s'.skip = s.skip) (hadds : ¬ s.Adds p)
  | command (hs : s.skip = 0) (hs' : s'.skip = 0) (hcursor : s'.cursor = s.cursor + 1)
      (hloops : s'.loops = s.loops) (hlt : s.cursor < p.ops.length)
      (hadds : ∀ n, p.ops[s.cursor]? = some (.add n) → s.phase = .running)
      (h : Arrives base (site s.cursor) s.tape (site (s.cursor + 1)) s'.tape)
  | enter (hs : s.skip = 0) (hop : p.ops[s.cursor]? = some .loopStart) (h : s' = s.enterLoop)
  | close (hs : s.skip = 0) (hop : p.ops[s.cursor]? = some .loopEnd) (h : s' = s.closeLoop)
  | pass (hs : s.skip ≠ 0) {op : Op} (hop : p.ops[s.cursor]? = some op) (h : s' = s.execute op)

namespace Located

variable {t : Transfer}

theorem effect_execute (h : Located site base s) (hc : Chart p.ops site) (hp : s.phase = .running)
    (hop : p.ops[s.cursor]? = some op) : Effect p site base s (s.execute op) := by
  by_cases hs : s.skip = 0
  · rcases op.bracket_or_command with rfl | rfl | ⟨c, rfl⟩
    · exact .enter hs hop rfl
    · exact .close hs hop rfl
    · have hlt := (List.getElem?_eq_some_iff.mp hop).1
      have hnow := h.arrives hc hs hop
      rw [State.execute_of_running hs]
      cases c with
      | move | add | reset =>
        exact .command hs hs rfl rfl hlt (fun _ _ => hp) (hnow ⟨nofun, nofun⟩)
      | read | write =>
        refine .wait rfl rfl rfl rfl fun ⟨_, n, hn⟩ => ?_
        cases hop.symm.trans hn
  · exact .pass hs hop rfl

theorem effect_afterTransfer (h : Located site base s) (hc : Chart p.ops site)
    (hp : s.phase = .transferring t) (ht : Transferring p s t) (position : Option Position)
    (reply : t.request.Reply) :
    Effect p site base s (s.afterTransfer (t.resume s.canPeek position reply)) := by
  have hskip := ht.unskipped
  have hstands : Stands base (site s.cursor) s.tape := State.stand_of_running hskip ▸ h
  obtain ⟨position', hhere⟩ := ht.here
  have hop : p.ops[s.cursor]? = some t.op := by
    rw [p.getElem?_ops, hhere]
    rfl
  have hlt := (List.getElem?_eq_some_iff.mp hop).1
  have hstep := hc.step _ _ hop
  have hbusy : ¬ s.Adds p := fun ⟨hrunning, _⟩ => by cases hp.symm.trans hrunning
  have hadds (n : Nat) (hn : p.ops[s.cursor]? = some (.add n)) : s.phase = .running := by
    rw [hop, Transfer.op] at hn
    split at hn <;> cases hn
  have hfits := t.fits_resume s.canPeek position reply
  generalize t.resume s.canPeek position reply = next at hfits ⊢
  rw [Transfer.op] at hstep
  cases next with
  | stage t' => exact .wait rfl rfl rfl rfl hbusy
  | done outcome =>
    cases outcome with
    | received byte =>
      rw [if_pos (show t.isRead = true from hfits)] at hstep
      exact .command hskip hskip rfl rfl hlt hadds (hstep.arrives_read hstands byte)
    | sent =>
      rw [if_neg (by simp [show t.isRead = false from hfits])] at hstep
      exact .command hskip hskip rfl rfl hlt hadds (hstep.arrives_write hstands)
    | failed e => exact .wait rfl rfl rfl rfl hbusy

theorem effect_ask (h : Located site base s) (hc : Chart p.ops site) (hr : Regular p tape s)
    {request : ByteRequest} {resume : request.Reply → State} (hs : step p s = .ask request resume)
    (reply : request.Reply) : Effect p site base s (resume reply) := by
  unfold step at hs
  split at hs
  case h_1 hopening =>
    split at hs
    case isTrue => cases hs
    case isFalse =>
      cases hs
      have hbusy : ¬ s.Adds p := fun ⟨hrunning, _⟩ => by cases hopening.symm.trans hrunning
      unfold opened
      split
      · exact .wait rfl rfl rfl rfl hbusy
      · exact .wait rfl rfl rfl rfl hbusy
  case h_2 =>
    split at hs
    case h_1 => cases hs
    case h_2 hnone =>
      cases hs
      have hbusy : ¬ s.Adds p := fun ⟨_, n, hn⟩ => by
        rw [p.getElem?_ops, hnone] at hn
        cases hn
      cases reply with
      | ok => exact .wait rfl rfl rfl rfl hbusy
      | error => exact .wait rfl rfl rfl rfl hbusy
  case h_3 t ht =>
    cases hs
    exact h.effect_afterTransfer hc ht (hr.transfer t ht) _ reply
  case h_4 => cases hs

theorem effect_next (h : Located site base s) (hc : Chart p.ops site) (hs : step p s = .next s') :
    Effect p site base s s' := by
  obtain ⟨hp, i, hi, rfl⟩ := exists_of_next hs
  exact h.effect_execute hc hp (by rw [p.getElem?_ops, hi]; rfl)

end Located

/-! ## Skipped loops -/

/-- The end of a loop that is skipped. -/
theorem execute_of_skipped (hs : s.skip ≠ 0) (hskip : (s.execute op).skip = 0) :
    op = .loopEnd ∧ s.skip = s.loops.size ∧ s.execute op = s.leaveLoop := by
  rcases op.bracket_or_command with rfl | rfl | ⟨c, rfl⟩
  · rw [State.execute_loopStart] at hskip
    simp only [State.enterLoop, hs, false_and, if_false] at hskip
  · rw [State.execute_loopEnd, State.closeLoop, if_neg fun h => hs h.1] at hskip ⊢
    have hleave : s.leaveLoop.skip = if s.skip = s.loops.size then 0 else s.skip := rfl
    refine ⟨rfl, ?_, rfl⟩
    rw [hleave] at hskip
    split at hskip
    · assumption
    · exact absurd hskip hs
  · rw [State.execute_of_skip hs] at hskip
    exact absurd hskip hs

/-- A skipped instruction is passed over. -/
theorem tape_cursor_execute_of_skipped (hs : s.skip ≠ 0) (op : Op) :
    (s.execute op).tape = s.tape ∧ (s.execute op).cursor = s.cursor + 1 := by
  rcases op.bracket_or_command with rfl | rfl | ⟨c, rfl⟩
  · exact ⟨rfl, rfl⟩
  · rw [State.execute_loopEnd, State.closeLoop, if_neg fun h => hs h.1]
    exact ⟨rfl, rfl⟩
  · rw [State.execute_of_skip hs]
    exact ⟨rfl, rfl⟩

namespace Located

theorem enter (h : Located site base s) (hc : Chart p.ops site) (hskip : s.skip = 0)
    (hop : p.ops[s.cursor]? = some .loopStart) : Located site base s.enterLoop := by
  have henter : s.enterLoop.skip = if s.tape.get = 0 then s.loops.size + 1 else 0 := by
    simp only [State.enterLoop, hskip, true_and]
  by_cases hcell : s.tape.get = 0
  · -- the place of a skipped loop is that of its start
    rw [if_pos hcell] at henter
    refine h.of_eq ?_ rfl
    rw [State.stand_of_running hskip, State.stand, henter, if_neg (Nat.succ_ne_zero _),
      Nat.add_sub_cancel]
    show ((s.loops.push s.cursor)[s.loops.size]?).getD (s.cursor + 1) = s.cursor
    rw [Array.getElem?_push_size, Option.getD_some]
  · rw [if_neg hcell] at henter
    refine h.of_offset hskip henter rfl ?_
    show (site (s.cursor + 1)).offset = _
    rw [(hc.opened hop).2]
    rfl

theorem close (h : Located site base s) (hc : Chart p.ops site) (hst : Stacked p s)
    (hn : Nested p.ops) (hskip : s.skip = 0) (hop : p.ops[s.cursor]? = some .loopEnd) :
    Located site base s.closeLoop := by
  obtain ⟨k, outer, hopen, hcloses⟩ := hn.openAt_loopEnd hop
  rw [State.closeLoop]
  split
  case isTrue =>
    have hback : s.loops.back? = some k := by rw [hst.back?, hopen, List.head?_cons]
    refine h.of_offset hskip hskip rfl ?_
    show (site (s.loops.back?.getD s.cursor + 1)).offset = _
    rw [hback, Option.getD_some, hc.offset_loopEnd hop hopen, (hc.opened hcloses.opening).2]
    rfl
  case isFalse =>
    refine h.of_offset hskip ?_ rfl (hc.offset_closed hop)
    show (if s.skip = s.loops.size then 0 else s.skip) = 0
    rw [hskip, ite_self]

/-- Behind a skipped loop the pointer is where it was in front of it. -/
theorem leave (h : Located site base s) (hc : Chart p.ops site) (hst : Stacked p s)
    (hn : Nested p.ops) (hs : s.skip ≠ 0) (hskip : s.skip = s.loops.size)
    (hop : p.ops[s.cursor]? = some .loopEnd) : Located site base s.leaveLoop := by
  obtain ⟨k, outer, hopen, -⟩ := hn.openAt_loopEnd hop
  have hback : s.loops[s.skip - 1]? = some k := by
    rw [hskip, ← Array.back?_eq_getElem?, hst.back?, hopen, List.head?_cons]
  have hleave : s.leaveLoop.skip = 0 := if_pos hskip
  rw [Located, State.stand, if_neg hs, hback, Option.getD_some] at h
  rw [Located, State.stand_of_running hleave]
  refine ⟨h.length, h.pointer.trans ?_⟩
  show place base (site k).offset = place base (site (s.cursor + 1)).offset
  rw [hc.offset_closed hop, hc.offset_loopEnd hop hopen]

theorem pass (h : Located site base s) (hc : Chart p.ops site) (hst : Stacked p s)
    (hn : Nested p.ops) (hs : s.skip ≠ 0) (hop : p.ops[s.cursor]? = some op) :
    Located site base (s.execute op) := by
  by_cases hskip : (s.execute op).skip = 0
  · obtain ⟨rfl, hsize, heq⟩ := execute_of_skipped hs hskip
    rw [heq]
    exact h.leave hc hst hn hs hsize hop
  · obtain ⟨htape, hsame, hloops⟩ := execute_of_skipping hs hst.skip hskip
    obtain ⟨start, hstart⟩ : ∃ start, s.loops[s.skip - 1]? = some start :=
      ⟨_, Array.getElem?_eq_getElem (by have := hst.skip; omega)⟩
    refine h.of_eq ?_ htape
    rw [State.stand, State.stand, hsame, if_neg hs, if_neg hs, hloops, hstart]
    rfl

/-- The pointer stays where the chart says. -/
theorem of_effect (h : Located site base s) (hc : Chart p.ops site) (hst : Stacked p s)
    (hn : Nested p.ops) (ht : Effect p site base s s') : Located site base s' := by
  cases ht with
  | wait htape hcursor hloops hskip =>
    refine h.of_eq ?_ htape
    rw [State.stand, State.stand, hcursor, hloops, hskip]
  | command hs hs' hcursor _ _ _ harrives =>
    rw [Located, State.stand_of_running hs', hcursor]
    exact harrives.stands
  | enter hs hop heq => exact heq ▸ h.enter hc hs hop
  | close hs hop heq => exact heq ▸ h.close hc hst hn hs hop
  | pass hs hop heq => exact heq ▸ h.pass hc hst hn hs hop

end Located

/-! ## Throughout a run -/

/-- A state that a run can be in. -/
structure Charted (p : Program) (tape : Tape) (site : Nat → Site length) (base : Nat)
    (s : State) : Prop where
  regular : Regular p tape s
  stacked : Stacked p s
  located : Located site base s

namespace Charted

variable (h : Charted p tape site base s) (hc : Chart p.ops site) (hn : Nested p.ops)

include h hc hn

theorem next (hs : step p s = .next s') : Charted p tape site base s' :=
  ⟨h.regular.next hs, h.stacked.next hn hs,
    h.located.of_effect hc h.stacked hn (h.located.effect_next hc hs)⟩

theorem ask {request : ByteRequest} {resume : request.Reply → State}
    (hs : step p s = .ask request resume) (reply : request.Reply) :
    Charted p tape site base (resume reply) :=
  ⟨h.regular.ask hs reply, h.stacked.ask h.regular hs reply,
    h.located.of_effect hc h.stacked hn (h.located.effect_ask hc h.regular hs reply)⟩

/-- Every action has one of these effects. -/
theorem acts (ha : Acts (step p) d s w s' w') :
    Effect p site base s s' ∧ Charted p tape site base s' := by
  cases ha with
  | next hs => exact ⟨h.located.effect_next hc hs, h.next hc hn hs⟩
  | ask hs => exact ⟨h.located.effect_ask hc h.regular hs _, h.ask hc hn hs _⟩

end Charted

/-- Where a run can get, the pointer is where the chart says. -/
theorem Charted.reaches (hc : Chart p.ops site) (hn : Nested p.ops)
    (hbase : Stands base (site 0) tape) (h : Reaches (step p) d n (start tape) w s w') :
    Charted p tape site base s :=
  h.keeps (fun _ _ hs hnext => hs.next hc hn hnext)
    (fun _ _ _ reply hs hask => hs.ask hc hn hask reply) ⟨.start p tape, .start p tape, hbase⟩

end Interpreter

end TapeLang
