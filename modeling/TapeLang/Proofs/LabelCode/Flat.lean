import TapeLang.LabelCode.Basic
import TapeLang.Proofs.Matching

/-!
# Lowering a flat list

What lowering has made in front of an instruction can be said without following it there: the labels
of a loop come from the number of loops that start before it, and the operations of an instruction
from its index and the loops that are open.

* `operationsOf`, `operationsAt`: the operations of one instruction.
* `stateAt`, `step_stateAt`: the state of lowering in front of an instruction.
* `lower_accepted`: in a list that is accepted, loops are nested, and each instruction is lowered to
  its operations.
-/

namespace TapeLang

namespace Lowering

variable {wrap : Wrap} {ops : List Op} {op : Op} {j k : Nat}

/-! ## Labels -/

/-- The first label that no loop in front of index `k` has. A loop that starts there has it at its
top, and the next one behind its bottom. -/
def labelAt (ops : List Op) (k : Nat) : Label := 2 * (ops.take k).count .loopStart

theorem labelAt_succ (ops : List Op) (k : Nat) :
    labelAt ops (k + 1) = labelAt ops k + if ops[k]? = some .loopStart then 2 else 0 := by
  rw [labelAt, labelAt, List.take_add_one, List.count_append]
  cases ops[k]? with
  | none => simp
  | some op =>
    by_cases hop : op = .loopStart
    · simp [hop, Nat.mul_add]
    · simp [hop]

theorem labelAt_mono (ops : List Op) (h : j ≤ k) : labelAt ops j ≤ labelAt ops k :=
  Nat.mul_le_mul_left 2 ((List.take_prefix_take_left h).sublist.count_le _)

/-- Loops that start at different places have different labels. -/
theorem labelAt_injective (hj : ops[j]? = some .loopStart) (hk : ops[k]? = some .loopStart)
    (h : labelAt ops j = labelAt ops k) : j = k := by
  have hlt {a b : Nat} (ha : ops[a]? = some .loopStart) (hab : a < b) :
      labelAt ops a < labelAt ops b := by
    have hsucc := labelAt_succ ops a
    rw [if_pos ha] at hsucc
    exact Nat.lt_of_lt_of_le (Nat.lt_of_lt_of_le (by simp) (Nat.le_of_eq hsucc.symm))
      (labelAt_mono ops hab)
  rcases Nat.lt_trichotomy j k with hjk | hjk | hjk
  · exact absurd h (Nat.ne_of_lt (hlt hj hjk))
  · exact hjk
  · exact absurd h.symm (Nat.ne_of_lt (hlt hk hjk))

/-! ## Operations -/

/-- The loop that starts at index `k`. -/
def loopAt (ops : List Op) (k : Nat) : Loop := ⟨labelAt ops k, labelAt ops k + 1⟩

/-- Where the loop starts that the bracket at index `k` belongs to. -/
def startOf (ops : List Op) (k : Nat) : Nat :=
  match ops[k]? with
  | some .loopEnd => (openAt ops k).headD k
  | _ => k

theorem startOf_loopStart (h : ops[k]? = some .loopStart) : startOf ops k = k := by
  rw [startOf, h]

theorem startOf_of_cons {outer : List Nat} (h : ops[k]? = some .loopEnd)
    (hopen : openAt ops k = j :: outer) : startOf ops k = j := by
  rw [startOf, h, hopen]
  rfl

theorem startOf_le (ops : List Op) (k : Nat) : startOf ops k ≤ k := by
  by_cases he : ops[k]? = some .loopEnd
  · cases hopen : openAt ops k with
    | nil => rw [startOf, he, hopen]; exact Nat.le_refl k
    | cons i outer =>
      rw [startOf_of_cons he hopen]
      exact Nat.le_of_lt (openAt_of_cons hopen).1
  · rw [startOf]
    split
    · contradiction
    · exact Nat.le_refl k

theorem closes_startOf (hn : Nested ops) (h : ops[k]? = some .loopEnd) :
    Closes ops (startOf ops k) k := by
  obtain ⟨i, outer, hopen, hcloses⟩ := hn.openAt_loopEnd h
  rwa [startOf_of_cons h hopen]

/-- The operations of an instruction. A bracket is one of `loop`. -/
def operationsOf (wrap : Wrap) (index : Nat) (loop : Loop) : Op → List Operation
  | .move n => [.move n.toUInt32 wrap]
  | .add n => [.add n.toUInt8]
  | .reset => [.reset]
  | .read => [.read index.toUInt32]
  | .write => [.write index.toUInt32]
  | .loopStart => [.bind loop.top, .branchIfZero loop.behind]
  | .loopEnd => [.jump loop.top, .bind loop.behind]

/-- The operations of the instruction at index `k`. -/
def operationsAt (wrap : Wrap) (ops : List Op) (k : Nat) : List Operation :=
  match ops[k]? with
  | none => []
  | some op => operationsOf wrap k (loopAt ops (startOf ops k)) op

theorem operationsAt_eq (h : ops[k]? = some op) :
    operationsAt wrap ops k = operationsOf wrap k (loopAt ops (startOf ops k)) op := by
  rw [operationsAt, h]

/-- The operations of the instructions in front of index `j`. -/
def operationsBefore (wrap : Wrap) (ops : List Op) (j : Nat) : List Operation :=
  (List.range j).flatMap (operationsAt wrap ops)

theorem operationsBefore_succ (wrap : Wrap) (ops : List Op) (j : Nat) :
    operationsBefore wrap ops (j + 1) = operationsBefore wrap ops j ++ operationsAt wrap ops j := by
  rw [operationsBefore, List.range_succ, List.flatMap_append, List.flatMap_singleton]
  rfl

/-- Lowering in front of index `j`. -/
def stateAt (wrap : Wrap) (ops : List Op) (j : Nat) : State where
  operations := (.prologue :: operationsBefore wrap ops j).toArray
  fresh := labelAt ops j
  loops := (openAt ops j).map (loopAt ops)

theorem stateAt_zero (wrap : Wrap) (ops : List Op) : stateAt wrap ops 0 = start := rfl

/-- Each instruction adds its operations, if it does not close what was never opened. -/
theorem step_stateAt (h : ops[j]? = some op) (hend : op = .loopEnd → openAt ops j ≠ []) :
    (stateAt wrap ops j).step wrap j op = stateAt wrap ops (j + 1) := by
  have hadded : (stateAt wrap ops (j + 1)).operations.toList =
      .prologue :: (operationsBefore wrap ops j ++
        operationsOf wrap j (loopAt ops (startOf ops j)) op) := by
    rw [← operationsAt_eq h, ← operationsBefore_succ]
    rfl
  have hlabel := labelAt_succ ops j
  by_cases hs : op = .loopStart
  · subst hs
    rw [startOf_loopStart h] at hadded
    rw [if_pos h] at hlabel
    apply State.ext
    · apply Array.ext'
      rw [hadded]
      simp [State.step, State.emit, stateAt, operationsOf, loopAt]
    · exact hlabel.symm
    · simp [State.step, State.emit, stateAt, openAt_loopStart h, loopAt]
  have hother : ops[j]? ≠ some .loopStart := by rw [h]; exact fun he => hs (Option.some.inj he)
  rw [if_neg hother, Nat.add_zero] at hlabel
  by_cases he : op = .loopEnd
  · subst he
    obtain ⟨i, outer, hopen⟩ := List.exists_cons_of_ne_nil (hend rfl)
    rw [startOf_of_cons h hopen] at hadded
    apply State.ext
    · apply Array.ext'
      rw [hadded]
      simp [State.step, State.emit, stateAt, operationsOf, hopen, loopAt]
    · simp [State.step, State.emit, stateAt, hopen, hlabel]
    · simp [State.step, stateAt, openAt_loopEnd h, hopen]
  · have hopen : openAt ops (j + 1) = openAt ops j :=
      openAt_other hother (by rw [h]; exact fun hend => he (Option.some.inj hend))
    apply State.ext
    · apply Array.ext'
      rw [hadded]
      cases op <;> first | contradiction | simp [State.step, State.emit, stateAt, operationsOf]
    · cases op <;> first | contradiction | exact hlabel.symm
    · have hloops : (stateAt wrap ops (j + 1)).loops = (stateAt wrap ops j).loops :=
        congrArg (List.map (loopAt ops)) hopen
      rw [hloops]
      cases op <;> first | contradiction | rfl

/-! ## Acceptance -/

theorem of_drop_eq_cons (h : ops.drop j = op :: rest) :
    j < ops.length ∧ ops[j]? = some op ∧ ops.drop (j + 1) = rest := by
  have hop : ops[j]? = some op := by
    rw [← List.head?_drop, h]
    rfl
  exact ⟨(List.getElem?_eq_some_iff.mp hop).1, hop, by rw [← List.tail_drop, h, List.tail_cons]⟩

/-- If lowering comes to the end from index `j` on, it has met no loop end that closes nothing, and
no loop is open behind the last instruction. -/
theorem steps_accepted (h : (steps wrap (stateAt wrap ops j) j (ops.drop j)).error = none)
    (hj : j ≤ ops.length) :
    (∀ m, j ≤ m → ops[m]? = some .loopEnd → openAt ops m ≠ []) ∧ openAt ops ops.length = [] ∧
      (steps wrap (stateAt wrap ops j) j (ops.drop j)).operations =
        (stateAt wrap ops ops.length).operations.push .epilogue := by
  induction hrest : ops.drop j generalizing j with
  | nil =>
    obtain rfl : j = ops.length := Nat.le_antisymm hj (List.drop_eq_nil_iff.mp hrest)
    rw [hrest, steps] at h
    have hopen : openAt ops ops.length = [] := by
      by_contra hne
      rw [if_neg (by simpa [stateAt] using hne)] at h
      cases h
    refine ⟨fun m hm hend => ?_, hopen, ?_⟩
    · have := (List.getElem?_eq_some_iff.mp hend).1
      omega
    · rw [steps, if_pos (by simp [stateAt, hopen])]
  | cons op rest ih =>
    obtain ⟨hlt, hop, hnext⟩ := of_drop_eq_cons hrest
    rw [hrest, steps] at h
    by_cases hstop : op = .loopEnd ∧ (stateAt wrap ops j).loops.isEmpty
    · rw [if_pos hstop] at h
      cases h
    have hend (he : op = .loopEnd) : openAt ops j ≠ [] :=
      fun hnil => hstop ⟨he, by simp [stateAt, hnil]⟩
    rw [if_neg hstop, step_stateAt hop hend, ← hnext] at h
    obtain ⟨hends, hlast, hoperations⟩ := ih h hlt hnext
    refine ⟨fun m hm he => ?_, hlast, ?_⟩
    · rcases Nat.eq_or_lt_of_le hm with rfl | hm
      · exact hend (Option.some.inj (hop.symm.trans he))
      · exact hends m hm he
    · rw [steps, if_neg hstop, step_stateAt hop hend]
      exact hoperations

/-- What is known of an instruction list that lowering accepts. -/
theorem lower_accepted {length : Nat} (h : (lower ops length).error = none) :
    ∃ wrap, Wrap.ofTapeLength length = .ok wrap ∧ ops.length ≤ maxInstructions ∧ Nested ops ∧
      (lower ops length).operations.toList =
        .prologue :: (operationsBefore wrap ops ops.length ++ [.epilogue]) := by
  unfold lower at h ⊢
  cases hw : Wrap.ofTapeLength length with
  | error e =>
    rw [hw] at h
    cases h
  | ok wrap =>
    rw [hw] at h
    simp only at h ⊢
    by_cases hmany : maxInstructions < ops.length
    · rw [if_pos hmany] at h
      cases h
    rw [if_neg hmany] at h ⊢
    rw [← stateAt_zero wrap ops] at h ⊢
    obtain ⟨hend, hlast, hoperations⟩ := @steps_accepted wrap ops 0 h (Nat.zero_le _)
    refine ⟨wrap, rfl, Nat.le_of_not_lt hmany,
      nested_of_openAt (fun m => hend m (Nat.zero_le m)) hlast, ?_⟩
    rw [List.drop_zero] at hoperations
    rw [hoperations]
    simp [stateAt]

end Lowering

end TapeLang
