import Mathlib.Algebra.Ring.Nat
import TapeLang.Proofs.Source.RoundTrip
import TapeLang.Proofs.Source.Size

/-!
# The shortest text of a program

A program that was read with both optimisations is written in no more characters than any text has
that spells it, on a tape of two cells or more. Each operation is written in no more characters than
its block has. A barrier has two: it stands where an idle block was dropped, which had two or more.

* `cost`: the characters of a written text; `price`: what a block has at least.
* `cost_reduce_le`: reduced operations cost no more than their blocks.
* `price_le_length`: what a block of a text pays for.
* `shortest_source`: no text of a program is shorter than the one that is written.
-/

namespace TapeLang

namespace Source

open Program

variable {length : Nat} {beforeThat previous : Option Op} {op : Op} {ops done : List Op}

/-! ## What is paid -/

/-- How many characters the text of `ops` has behind `previous` and `beforeThat`. -/
def cost (length : Nat) (beforeThat previous : Option Op) (ops : List Op) : Nat :=
  (sourceFrom length beforeThat previous ops).flatten.length

/-- How many characters a block of this operation has at least: as many as are written for it, and
two if it is dropped. -/
def price (length : Nat) (op : Op) : Nat :=
  if op.isIdle then 2 else (opSource length op).length

/-- What a dropped block in front leaves for a barrier. -/
def slack (done : List Op) : Nat := if done.head?.any Op.isIdle then 2 else 0

theorem length_barrier (previous : Op) : (barrier previous).length = 2 := by
  unfold barrier
  split <;> rfl

theorem cost_cons_le (length : Nat) (beforeThat previous : Option Op) (op : Op) (ops : List Op) :
    cost length beforeThat previous (op :: ops) ≤
      (if needsBarrier beforeThat previous op then 2 else 0) + (opSource length op).length +
        cost length previous (some op) ops := by
  have hgap : (previous.elim [] barrier).length ≤ 2 := by
    cases previous with
    | none => exact Nat.zero_le 2
    | some q => exact Nat.le_of_eq (length_barrier q)
  rw [cost, cost, sourceFrom, List.flatten_cons, List.length_append, List.length_append]
  split
  · omega
  · exact Nat.le_refl _

/-- Without a barrier. -/
theorem cost_cons_of_not (h : needsBarrier beforeThat previous op = false) (length : Nat)
    (ops : List Op) :
    cost length beforeThat previous (op :: ops) ≤
      (opSource length op).length + cost length previous (some op) ops := by
  have hcost := cost_cons_le length beforeThat previous op ops
  rwa [h, if_neg Bool.false_ne_true, Nat.zero_add] at hcost

theorem slack_cons (h : op.isIdle = false) (ops : List Op) : slack (op :: ops) = 0 := by
  simp [slack, h]

theorem slack_cons_of_isIdle (h : op.isIdle) (ops : List Op) : slack (op :: ops) = 2 := by
  simp [slack, h]

/-- Of operations that do not join, only the end of a loop around a single step needs a barrier. -/
theorem needsBarrier_of_apart {q : Op} (hjoin : join? length q op = none)
    (h : needsBarrier beforeThat (some q) op) :
    op = .loopEnd ∧ q.isUnitAdd ∧ beforeThat = some .loopStart := by
  cases op with
  | loopEnd => simpa [needsBarrier] using h
  | move n => cases q <;> simp [needsBarrier, join?] at h hjoin
  | add n => cases q <;> simp [needsBarrier, join?] at h hjoin
  | reset | loopStart | read | write => cases h

/-- A barrier is needed only where something was dropped. -/
theorem slack_of_needsBarrier {rest : List Op} (ha : Apart done (op :: rest))
    (hjoin : ∀ last ∈ done.head?, join? length last op = none)
    (h : needsBarrier (settle done).tail.head? (settle done).head? op) : slack done = 2 := by
  cases done with
  | nil => cases op <;> cases h
  | cons q more =>
    cases hq : q.isIdle with
    | true => exact slack_cons_of_isIdle hq more
    | false =>
      rw [settle_cons hq] at h
      obtain ⟨rfl, hu, hstart⟩ := needsBarrier_of_apart (hjoin q rfl) h
      obtain ⟨outer, rfl⟩ := List.head?_eq_some_iff.mp hstart
      exact absurd rfl (ha.closing q outer rfl hu)

/-- What was dropped just before pays for a barrier. -/
theorem gap_le_slack {rest : List Op} (ha : Apart done (op :: rest))
    (hc : (done.head?.toList ++ op :: rest).IsChain fun a b => join? length a b = none) :
    (if needsBarrier (settle done).tail.head? (settle done).head? op then 2 else 0) ≤
      slack done := by
  split
  case isTrue h =>
    have hjoin : ∀ last ∈ done.head?, join? length last op = none := by
      intro last hlast
      obtain ⟨more, rfl⟩ := List.head?_eq_some_iff.mp hlast
      exact (List.isChain_cons_cons.mp hc).1
    exact Nat.le_of_eq (slack_of_needsBarrier ha hjoin h).symm
  case isFalse => exact Nat.zero_le _

/-- A loop that clears its cell has its two brackets and its step. -/
theorem three_add_price_le {step : Op} (hu : step.isUnitAdd) (idle behind : List Op) :
    3 + (behind.map (price length)).sum ≤
      ((Op.loopStart :: (idle ++ step :: .loopEnd :: behind)).map (price length)).sum := by
  have hstep : price length step = 1 := by
    simp only [Op.isUnitAdd, Bool.or_eq_true, beq_iff_eq] at hu
    rcases hu with rfl | rfl <;> rfl
  have hbrackets : price length .loopStart = 1 ∧ price length .loopEnd = 1 := ⟨rfl, rfl⟩
  simp only [List.map_cons, List.map_append, List.sum_cons, List.sum_append]
  omega

/-- Reduced, operations cost no more than their blocks have characters. The induction is along
`reduce`; what was dropped just before pays for the next barrier. -/
theorem cost_reduce_le (ha : Apart done ops)
    (hc : (done.head?.toList ++ ops).IsChain fun a b => join? length a b = none) :
    cost length (settle done).tail.head? (settle done).head? (reduce true ops) ≤
      slack done + (ops.map (price length)).sum := by
  have hlater {done more : List Op} {op : Op}
      (hc : (done.head?.toList ++ op :: more).IsChain fun a b => join? length a b = none) :
      (op :: more).IsChain fun a b => join? length a b = none := (List.isChain_append.mp hc).2.1
  fun_induction reduce true ops generalizing done with
  | case1 => exact Nat.zero_le _
  | case2 rest behind hb hclear ih =>
    obtain ⟨idle, step, rfl, hidle, hu⟩ := behindClear?_eq_some.mp hb
    have hbehind : (Op.reset :: behind).IsChain fun a b => join? length a b = none := by
      have hsuffix : (idle ++ step :: .loopEnd :: behind).IsChain
          fun a b => join? length a b = none := (hlater hc).tail
      refine List.isChain_cons.mpr ⟨fun b _ => ?_, (List.isChain_append.mp hsuffix).2.1.tail.tail⟩
      cases b <;> rfl
    have hrest := @ih (.reset :: settle done) (apart_reset _ _) hbehind
    rw [settle_cons rfl, slack_cons rfl, Nat.zero_add] at hrest
    calc cost length (settle done).tail.head? (settle done).head? (.reset :: reduce true behind)
        ≤ 3 + cost length (settle done).head? (some .reset) (reduce true behind) :=
          cost_cons_of_not rfl length _
      _ ≤ 3 + (behind.map (price length)).sum := Nat.add_le_add_left hrest 3
      _ ≤ ((Op.loopStart :: (idle ++ step :: .loopEnd :: behind)).map (price length)).sum :=
          three_add_price_le hu idle behind
      _ ≤ _ := Nat.le_add_left _ _
  | case3 rest behind hb hclear ih => exact absurd rfl hclear
  | case4 rest hb ih =>
    have hrest := @ih (.loopStart :: settle done) (apart_loopStart hb _) (hlater hc)
    rw [settle_cons rfl, slack_cons rfl, Nat.zero_add] at hrest
    calc cost length (settle done).tail.head? (settle done).head? (.loopStart :: reduce true rest)
        ≤ 1 + cost length (settle done).head? (some .loopStart) (reduce true rest) :=
          cost_cons_of_not rfl length _
      _ ≤ 1 + (rest.map (price length)).sum := Nat.add_le_add_left hrest 1
      _ ≤ slack done + ((Op.loopStart :: rest).map (price length)).sum := by
          have hbracket : price length .loopStart = 1 := rfl
          rw [List.map_cons, List.sum_cons]
          omega
  | case5 op rest hop hi ih =>
    have hrest := @ih (op :: settle done) (ha.idle hi) (hlater hc)
    rw [settle_cons_of_isIdle hi, slack_cons_of_isIdle hi] at hrest
    have hprice : price length op = 2 := if_pos hi
    rw [List.map_cons, List.sum_cons, hprice]
    exact Nat.le_trans hrest (Nat.le_add_left _ _)
  | case6 op rest hop hi ih =>
    have hi : op.isIdle = false := by simpa using hi
    have hrest := @ih (op :: settle done) (ha.cons hi hop) (hlater hc)
    rw [settle_cons hi, slack_cons hi, Nat.zero_add] at hrest
    have hprice : price length op = (opSource length op).length := if_neg (by simp [hi])
    have hgap := gap_le_slack ha hc
    calc cost length (settle done).tail.head? (settle done).head? (op :: reduce true rest)
        ≤ _ + (opSource length op).length +
            cost length (settle done).head? (some op) (reduce true rest) :=
          cost_cons_le length _ _ op _
      _ ≤ slack done + (opSource length op).length + (rest.map (price length)).sum :=
          Nat.add_le_add (Nat.add_le_add_right hgap _) hrest
      _ = slack done + ((op :: rest).map (price length)).sum := by
          rw [List.map_cons, List.sum_cons, hprice, Nat.add_assoc]

/-! ## What pays -/

theorem length_shortestRun (count modulus : Nat) (forward back : Char) :
    (shortestRun count modulus forward back).length = min count (modulus - count) := by
  unfold shortestRun
  split <;> rw [List.length_replicate] <;> omega

/-- To get as far round the circle, one way or the other, takes no more steps than were made. -/
theorem min_net_le {forward back : Char} (hne : forward ≠ back) {modulus : Nat}
    (hm : 0 < modulus) (block : List Char) :
    min (net forward back modulus block) (modulus - net forward back modulus block) ≤
      block.length := by
  have hcount : block.count forward + block.count back ≤ block.length := by
    induction block with
    | nil => exact Nat.le_refl 0
    | cons a block ih =>
      have hone : (if a == forward then 1 else 0) + (if a == back then 1 else 0) ≤ 1 := by
        by_cases hf : a = forward
        · subst hf
          simp [hne]
        · simp only [beq_iff_eq, if_neg hf]
          split <;> omega
      rw [List.count_cons, List.count_cons, List.length_cons]
      omega
  have hnet := natCast_net hm forward back block
  obtain ⟨steps, hsteps⟩ : ∃ steps, steps = (block.count forward : Int) - block.count back :=
    ⟨_, rfl⟩
  rw [← hsteps] at hnet
  have hsplit := Int.mul_ediv_add_emod steps modulus
  rw [← hnet] at hsplit
  rcases Int.lt_or_le steps 0 with hback | hforward
  · -- the whole turns go back, so the rest of the last one is not longer than the way
    have hturns : (modulus : Int) * (steps / modulus) ≤ modulus * (-1) :=
      Int.mul_le_mul_of_nonneg_left
        (Int.le_of_lt_add_one (Int.ediv_neg_of_neg_of_pos hback (by omega))) (by omega)
    omega
  · have hturns : 0 ≤ (modulus : Int) * (steps / modulus) :=
      Int.mul_nonneg (by omega) (Int.ediv_nonneg hforward (by omega))
    omega

theorem length_pos_of_isBlock {joinRuns : Bool} {block : List Char} (h : IsBlock joinRuns block) :
    0 < block.length := by
  cases h <;> exact Nat.succ_pos _

/-- A block that is written again takes no more characters than it has. -/
theorem length_opSource_le (hpos : 0 < length) {block : List Char} (h : IsBlock true block) :
    (opSource length (blockOp length block)).length ≤ block.length := by
  cases hop : blockOp length block with
  | move n =>
    have hmove : ∀ ch ∈ block, isMovement ch := forall_isMovement h hop
    obtain ⟨ch, rest, rfl⟩ := List.exists_cons_of_length_pos (length_pos_of_isBlock h)
    rw [blockOp_of_isMovement (hmove ch List.mem_cons_self)] at hop
    obtain rfl := Op.move.inj hop
    rw [opSource, length_shortestRun]
    exact min_net_le (by decide) hpos _
  | add n =>
    have hadd : ∀ ch ∈ block, isAddition ch := forall_isAddition h hop
    obtain ⟨ch, rest, rfl⟩ := List.exists_cons_of_length_pos (length_pos_of_isBlock h)
    rw [blockOp_of_isAddition (hadd ch List.mem_cons_self)] at hop
    obtain rfl := Op.add.inj hop
    rw [opSource, length_shortestRun]
    exact min_net_le (by decide) (by decide) _
  | reset =>
    unfold blockOp at hop
    split at hop <;> cases hop
  | loopStart | loopEnd | read | write => exact length_pos_of_isBlock h

/-- It takes two commands to do nothing. -/
theorem two_le_length (hlength : 2 ≤ length) {block : List Char} (h : IsBlock true block)
    (hi : (blockOp length block).isIdle) : 2 ≤ block.length := by
  by_contra hshort
  obtain ⟨ch, rfl⟩ : ∃ ch, block = [ch] := by
    have hpos := length_pos_of_isBlock h
    exact List.length_eq_one_iff.mp (by omega)
  have hcommand : isCommand ch := isCommand_of_mem_isBlock h (List.mem_singleton_self ch)
  rcases isCommand_cases hcommand with hadd | hmove | rfl | rfl | rfl | rfl
  · have hactive := isIdle_of_isUnitAdd (isUnitAdd_commandOp hadd length)
    cases hactive.symm.trans hi
  · have hone := (isIdle_commandOp_iff (by omega) hmove).mp hi
    omega
  all_goals cases hi

theorem price_le_length (hlength : 2 ≤ length) {block : List Char} (h : IsBlock true block) :
    price length (blockOp length block) ≤ block.length := by
  unfold price
  split
  case isTrue hi => exact two_le_length hlength h hi
  case isFalse => exact length_opSource_le (by omega) h

theorem sum_price_le (hlength : 2 ≤ length) {bs : List (List Char)}
    (h : ∀ b ∈ bs, IsBlock true b) :
    ((bs.map (blockOp length)).map (price length)).sum ≤ bs.flatten.length := by
  induction bs with
  | nil => exact Nat.le_refl 0
  | cons b bs ih =>
    have hb := price_le_length hlength (h b List.mem_cons_self)
    have hbs := ih fun a ha => h a (List.mem_cons_of_mem b ha)
    rw [List.map_cons, List.map_cons, List.sum_cons, List.flatten_cons, List.length_append]
    exact Nat.add_le_add hb hbs

/-- The operations of neighbouring blocks do not join. -/
theorem isChain_map_blocks (length : Nat) (text : List Char) :
    ((blocks true text).map (blockOp length)).IsChain fun a b => join? length a b = none := by
  rw [List.isChain_map]
  refine (isChain_blocks true text).imp_of_mem_imp fun a b ha hb hapart => ?_
  exact @join?_blockOp length .all rfl a b (isBlock_of_mem_blocks ha) (isBlock_of_mem_blocks hb)
    hapart

/-! ## Programs -/

theorem length_source (p : Program) :
    p.source.length = cost p.tapeLength none none p.ops := by
  rw [Program.source, String.length_ofList, cost]

/-- A program is written in no more characters than there are commands in its text. -/
theorem length_source_le {source : String} {c : Config} {p : Program} (h : parse source c = .ok p)
    (hlength : 2 ≤ c.tapeLength) (hall : c.optimisations = .all) :
    p.source.length ≤ (commands source.toList).length := by
  have hcost := cost_reduce_le (apart_nil _) (isChain_map_blocks c.tapeLength source.toList)
  have hpaid := @sum_price_le c.tapeLength hlength (blocks true source.toList)
    fun b => isBlock_of_mem_blocks
  have hflat : (blocks true source.toList).flatten = commands source.toList :=
    List.flatten_splitBy ..
  rw [hflat] at hpaid
  rw [length_source, tapeLength_of_parse h, ops_of_parse h, hall]
  calc _ ≤ _ := hcost
    _ = _ := Nat.zero_add _
    _ ≤ _ := hpaid

/-- What is written for a program that was read is read again as the same. -/
theorem exists_parse_written {source : String} {c : Config} {p : Program}
    (h : parse source c = .ok p) (hall : c.optimisations = .all) :
    ∃ q, parse p.source c = .ok q ∧ q.ops = p.ops := by
  have hops := ops_of_parse h
  have hlength := tapeLength_of_parse h
  have hproper : ∀ op ∈ p.ops, Proper p.tapeLength op := fun op hop =>
    proper_normalForm p.tapeLength_pos (hlength ▸ hops ▸ hop)
  have hform : normalForm c.tapeLength c.optimisations p.source.toList = p.ops := by
    rw [hall, ← hlength]
    exact normalForm_source hproper rfl fun _ => rfl
  have hbrackets : brackets p.source.toList = brackets source.toList := by
    rw [← brackets_normalForm c.tapeLength c.optimisations, hform, hops, brackets_normalForm]
  obtain ⟨q, hq⟩ := (exists_parse_iff p.source c).mpr
    (hbrackets ▸ (exists_parse_iff source c).mp ⟨p, h⟩)
  exact ⟨q, hq, (ops_of_parse hq).trans hform⟩

/-- The text that is written for a program spells it, and no text that spells it is shorter. -/
theorem shortest_source {source : String} {c : Config} {p : Program} (h : parse source c = .ok p)
    (hlength : 2 ≤ c.tapeLength) (hall : c.optimisations = .all) :
    p.source.length ≤ (commands source.toList).length ∧
      (∃ q, parse p.source c = .ok q ∧ q.ops = p.ops) ∧
      ∀ (other : String) (d : Config) (q : Program), parse other d = .ok q →
        d.tapeLength = c.tapeLength → d.optimisations = .all → q.ops = p.ops →
        p.source.length ≤ other.length := by
  refine ⟨length_source_le h hlength hall, exists_parse_written h hall, ?_⟩
  intro other d q hq hd hdall hops
  have hsame : q.source = p.source := by
    rw [Program.source, Program.source, hops, tapeLength_of_parse hq, tapeLength_of_parse h, hd]
  rw [← hsame]
  calc q.source.length ≤ (commands other.toList).length :=
        length_source_le hq (hd ▸ hlength) hdall
    _ ≤ other.toList.length := List.length_filter_le _ _
    _ = other.length := String.length_toList

/-- Two barriers are written: for the moves between the additions, and for those in the loop. -/
theorem shortest_source_barriers : ∃ p : Program,
    parse "+ ><>< +[-><]" ⟨2, 256, .all, by decide, by decide⟩ = .ok p ∧
    p.source = "+><+[-><]" ∧ p.source.length ≤ (commands "+ ><>< +[-><]".toList).length ∧
    ∀ (other : String) (q : Program),
      parse other ⟨2, 256, .all, by decide, by decide⟩ = .ok q → q.ops = p.ops →
      9 ≤ other.length := by
  obtain ⟨p, hp, hs⟩ : ∃ p : Program,
      parse "+ ><>< +[-><]" ⟨2, 256, .all, by decide, by decide⟩ = .ok p ∧
      p.source = "+><+[-><]" := ⟨_, rfl, by decide +kernel⟩
  obtain ⟨hle, -, hshortest⟩ := shortest_source hp (by decide) rfl
  refine ⟨p, hp, hs, hle, fun other q hq hops => ?_⟩
  have hother := hshortest other _ q hq rfl rfl hops
  rw [hs] at hother
  exact hother

end Source

end TapeLang
