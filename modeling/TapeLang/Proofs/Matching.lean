import Mathlib.Data.Nat.Find
import TapeLang.Proofs.Source.WellFormed

/-!
# Matching brackets

Which loop end closes which loop start is said by the depths alone: behind a loop start the depth
stays above what it was, until the end that brings it back. The indices of the loops that are open
in front of an instruction are found in one pass; in a program whose loops are closed they are the
loops around that instruction.

* `depthAt`: how deep loops are nested in front of an instruction.
* `Closes`: a loop end closes a loop start.
* `openAt`: the open loops, innermost first; `mem_openAt`: they are the loops around.
* `Timely.openAt_loopEnd`: at a loop end that does not come too early, the innermost one is the one
  it closes.
* `nested_of_openAt`: what has to be checked in the pass to know that loops are nested.
-/

namespace TapeLang

variable {ops : List Op} {i j k m : Nat}

/-! ## Depths -/

/-- How deep loops are nested in front of instruction `j`. -/
def depthAt (ops : List Op) (j : Nat) : Int := loopDepth (ops.take j)

/-- By how much an operation goes deeper. -/
def descent : Option Op → Int
  | some .loopStart => 1
  | some .loopEnd => -1
  | _ => 0

theorem depthAt_succ (ops : List Op) (j : Nat) :
    depthAt ops (j + 1) = depthAt ops j + descent ops[j]? := by
  rw [depthAt, depthAt, loopDepth, loopDepth, List.take_add_one, List.count_append,
    List.count_append]
  cases ops[j]? with
  | none => simp [descent]
  | some op => cases op <;> simp [descent] <;> omega

/-- No loop end in front of instruction `j` comes too early. -/
def Timely (ops : List Op) (j : Nat) : Prop := ∀ i, i ≤ j → 0 ≤ depthAt ops i

theorem Timely.mono (h : Timely ops j) (hi : i ≤ j) : Timely ops i :=
  fun k hk => h k (Nat.le_trans hk hi)

theorem Timely.succ (h : Timely ops j) (hj : 0 ≤ depthAt ops (j + 1)) : Timely ops (j + 1) := by
  intro i hi
  rcases Nat.lt_or_eq_of_le hi with hi | rfl
  · exact h i (Nat.le_of_lt_succ hi)
  · exact hj

/-- Loops are closed in order, and all of them. -/
structure Nested (ops : List Op) : Prop where
  nonneg : ∀ j, 0 ≤ depthAt ops j
  closed : ∀ j, ops.length ≤ j → depthAt ops j = 0

theorem Nested.timely (h : Nested ops) (j : Nat) : Timely ops j := fun i _ => h.nonneg i

theorem Program.WellFormed.isNested {p : Program} {c : Config} (h : p.WellFormed c) :
    Nested p.ops where
  nonneg j := (h.nested _ (List.take_prefix j p.ops)).1
  closed j hj := by rw [depthAt, List.take_of_length_le hj, h.closed]

/-! ## Closing -/

/-- The loop end at index `m` closes the loop start at index `k`. -/
structure Closes (ops : List Op) (k m : Nat) : Prop where
  before : k < m
  opening : ops[k]? = some .loopStart
  closing : ops[m]? = some .loopEnd
  inside : ∀ j, k < j → j ≤ m → depthAt ops k < depthAt ops j
  back : depthAt ops (m + 1) = depthAt ops k

/-- A loop start is closed by one end only. -/
theorem Closes.unique_end {m' : Nat} (h : Closes ops k m) (h' : Closes ops k m') : m = m' := by
  have hle {a b : Nat} (ha : Closes ops k a) (hb : Closes ops k b) : b ≤ a := by
    apply Nat.le_of_not_lt
    intro hlt
    have := hb.inside (a + 1) (Nat.lt_succ_of_lt ha.before) hlt
    rw [ha.back] at this
    omega
  exact Nat.le_antisymm (hle h' h) (hle h h')

/-- A loop end closes one loop start only. -/
theorem Closes.unique_start {k' : Nat} (h : Closes ops k m) (h' : Closes ops k' m) : k = k' := by
  have hle {a b : Nat} (ha : Closes ops a m) (hb : Closes ops b m) : b ≤ a := by
    apply Nat.le_of_not_lt
    intro hlt
    have := ha.inside b hlt (Nat.le_of_lt hb.before)
    have hsame := ha.back.symm.trans hb.back
    omega
  exact Nat.le_antisymm (hle h' h) (hle h h')

/-- The loop start at index `k` is not closed in front of instruction `j`. -/
structure OpenAt (ops : List Op) (k j : Nat) : Prop where
  before : k < j
  opening : ops[k]? = some .loopStart
  inside : ∀ i, k < i → i ≤ j → depthAt ops k < depthAt ops i

theorem Closes.openAt (h : Closes ops k m) (hk : k < j) (hj : j ≤ m) : OpenAt ops k j :=
  ⟨hk, h.opening, fun i hi hij => h.inside i hi (Nat.le_trans hij hj)⟩

/-- What is open will be closed. -/
theorem OpenAt.exists_closes (h : OpenAt ops k j) (hn : Nested ops) :
    ∃ m, Closes ops k m ∧ j ≤ m := by
  -- the first place from `j` on where the depth is back
  have hback : ∃ i, j ≤ i ∧ depthAt ops i ≤ depthAt ops k :=
    ⟨max j ops.length, Nat.le_max_left .., by
      rw [hn.closed _ (Nat.le_max_right ..)]
      exact hn.nonneg k⟩
  obtain ⟨hle, hdepth⟩ := Nat.find_spec hback
  have hmin {i : Nat} (hi : i < Nat.find hback) (hj : j ≤ i) : depthAt ops k < depthAt ops i :=
    Int.lt_of_not_ge fun hge => Nat.find_min hback hi ⟨hj, hge⟩
  obtain ⟨m, hm⟩ : ∃ m, Nat.find hback = m + 1 := Nat.exists_eq_succ_of_ne_zero (by
    have := h.before
    omega)
  have hj : j ≠ m + 1 := by
    intro hj
    have := h.inside j h.before (Nat.le_refl j)
    rw [hm, ← hj] at hdepth
    omega
  rw [hm] at hle hdepth hmin
  have hlast := hmin (Nat.lt_succ_self m) (by omega)
  have hsucc := depthAt_succ ops m
  have hclosing : ops[m]? = some .loopEnd := by
    unfold descent at hsucc
    split at hsucc
    · omega
    · assumption
    · omega
  rw [hclosing, descent] at hsucc
  refine ⟨m, ⟨?_, h.opening, hclosing, fun i hi him => ?_, by omega⟩, by omega⟩
  · have := h.before
    omega
  · by_cases hij : i ≤ j
    · exact h.inside i hi hij
    · exact hmin (by omega) (by omega)

/-! ## Open loops -/

/-- The indices of the loop starts that are open in front of instruction `j`, innermost first. -/
def openAt (ops : List Op) : Nat → List Nat
  | 0 => []
  | j + 1 =>
    match ops[j]? with
    | some .loopStart => j :: openAt ops j
    | some .loopEnd => (openAt ops j).tail
    | _ => openAt ops j

theorem openAt_loopStart (h : ops[j]? = some .loopStart) :
    openAt ops (j + 1) = j :: openAt ops j := by rw [openAt, h]

theorem openAt_loopEnd (h : ops[j]? = some .loopEnd) :
    openAt ops (j + 1) = (openAt ops j).tail := by rw [openAt, h]

theorem openAt_other (hs : ops[j]? ≠ some .loopStart) (he : ops[j]? ≠ some .loopEnd) :
    openAt ops (j + 1) = openAt ops j := by
  rw [openAt]
  split
  · contradiction
  · contradiction
  · rfl

/-- What is open in front of an instruction was open in front of the innermost loop around it. -/
theorem openAt_of_cons {rest : List Nat} (h : openAt ops j = k :: rest) :
    k < j ∧ ops[k]? = some .loopStart ∧ openAt ops k = rest := by
  induction j using Nat.strongRecOn generalizing k rest with
  | ind j ih =>
    cases j with
    | zero => cases h
    | succ j =>
      by_cases hs : ops[j]? = some .loopStart
      · rw [openAt_loopStart hs] at h
        obtain ⟨rfl, rfl⟩ := List.cons.inj h
        exact ⟨Nat.lt_succ_self j, hs, rfl⟩
      by_cases he : ops[j]? = some .loopEnd
      · rw [openAt_loopEnd he] at h
        cases hj : openAt ops j with
        | nil =>
          rw [hj] at h
          cases h
        | cons inner outer =>
          rw [hj] at h
          obtain ⟨hlt, -, hinner⟩ := ih j (Nat.lt_succ_self j) hj
          obtain ⟨hk, hopening, hrest⟩ := ih inner (Nat.lt_succ_of_lt hlt) (hinner.trans h)
          exact ⟨by omega, hopening, hrest⟩
      · rw [openAt_other hs he] at h
        obtain ⟨hk, hopening, hrest⟩ := ih j (Nat.lt_succ_self j) h
        exact ⟨Nat.lt_succ_of_lt hk, hopening, hrest⟩

/-- Each open loop starts in front. -/
theorem start_of_mem_openAt (h : k ∈ openAt ops j) : k < j ∧ ops[k]? = some .loopStart := by
  induction j using Nat.strongRecOn with
  | ind j ih =>
    cases hj : openAt ops j with
    | nil => simp [hj] at h
    | cons inner outer =>
      obtain ⟨hlt, hstart, houter⟩ := openAt_of_cons hj
      rw [hj, List.mem_cons] at h
      rcases h with rfl | hk
      · exact ⟨hlt, hstart⟩
      · obtain ⟨hk, hop⟩ := ih inner hlt (houter ▸ hk)
        exact ⟨Nat.lt_trans hk hlt, hop⟩

/-- The number of open loops follows the depth as long as no loop end comes too early. -/
theorem length_openAt_succ (hj : ((openAt ops j).length : Int) = depthAt ops j)
    (hend : ops[j]? = some .loopEnd → openAt ops j ≠ []) :
    ((openAt ops (j + 1)).length : Int) = depthAt ops (j + 1) := by
  have hsucc := depthAt_succ ops j
  by_cases hs : ops[j]? = some .loopStart
  · rw [hs, descent] at hsucc
    rw [openAt_loopStart hs, List.length_cons]
    omega
  by_cases he : ops[j]? = some .loopEnd
  · rw [he, descent] at hsucc
    have := List.length_pos_iff.mpr (hend he)
    rw [openAt_loopEnd he, List.length_tail]
    omega
  · rw [openAt_other hs he, hj, hsucc]
    unfold descent
    split
    · contradiction
    · contradiction
    · omega

/-- If there is an open loop at each loop end and none at the end of all, then loops are nested. -/
theorem nested_of_openAt (hend : ∀ m, ops[m]? = some .loopEnd → openAt ops m ≠ [])
    (hlast : openAt ops ops.length = []) : Nested ops := by
  have hlength (j : Nat) : ((openAt ops j).length : Int) = depthAt ops j := by
    induction j with
    | zero => rfl
    | succ j ih => exact length_openAt_succ ih (hend j)
  refine ⟨fun j => ?_, fun j hj => ?_⟩
  · have := hlength j
    omega
  · have hzero := hlength ops.length
    rw [hlast, depthAt, List.take_length] at hzero
    rw [depthAt, List.take_of_length_le hj]
    exact hzero.symm

/-- The depth in front of a loop around is below all depths from there on. -/
theorem openAt_iff_succ (hs : ops[j]? ≠ some .loopStart) :
    OpenAt ops k (j + 1) ↔ OpenAt ops k j ∧ depthAt ops k < depthAt ops (j + 1) := by
  constructor
  · intro h
    have hne : k ≠ j := fun hkj => hs (hkj ▸ h.opening)
    have hbefore := h.before
    exact ⟨⟨by omega, h.opening, fun i hi hij => h.inside i hi (Nat.le_succ_of_le hij)⟩,
      h.inside (j + 1) h.before (Nat.le_refl _)⟩
  · rintro ⟨h, hlt⟩
    refine ⟨Nat.lt_succ_of_lt h.before, h.opening, fun i hi hij => ?_⟩
    rcases Nat.lt_or_eq_of_le hij with hij | rfl
    · exact h.inside i hi (Nat.le_of_lt_succ hij)
    · exact hlt

theorem openAt_iff_loopStart (hs : ops[j]? = some .loopStart) :
    OpenAt ops k (j + 1) ↔ k = j ∨ OpenAt ops k j := by
  have hsucc := depthAt_succ ops j
  rw [hs, descent] at hsucc
  constructor
  · intro h
    have hbefore := h.before
    by_cases hkj : k = j
    · exact .inl hkj
    · exact .inr ⟨by omega, h.opening, fun i hi hij => h.inside i hi (Nat.le_succ_of_le hij)⟩
  · rintro (rfl | h)
    · refine ⟨Nat.lt_succ_self k, hs, fun i hi hik => ?_⟩
      obtain rfl : i = k + 1 := by omega
      omega
    · refine ⟨Nat.lt_succ_of_lt h.before, h.opening, fun i hi hij => ?_⟩
      rcases Nat.lt_or_eq_of_le hij with hij | rfl
      · exact h.inside i hi (Nat.le_of_lt_succ hij)
      · have := h.inside j h.before (Nat.le_refl j)
        omega

namespace Timely

/-- There are as many open loops as the depth says. -/
theorem length_openAt (h : Timely ops j) : ((openAt ops j).length : Int) = depthAt ops j := by
  induction j with
  | zero => rfl
  | succ j ih =>
    have ih := ih (h.mono (Nat.le_succ j))
    refine length_openAt_succ ih fun he hnil => ?_
    have hsucc := depthAt_succ ops j
    have hnonneg := h (j + 1) (Nat.le_refl _)
    rw [he, descent] at hsucc
    rw [hnil, List.length_nil] at ih
    omega

theorem depthAt_of_cons (h : Timely ops j) {rest : List Nat} (hj : openAt ops j = k :: rest) :
    depthAt ops j = depthAt ops k + 1 := by
  obtain ⟨hlt, -, houter⟩ := openAt_of_cons hj
  have hlength := h.length_openAt
  rw [hj, ← houter, List.length_cons, Int.natCast_add,
    (h.mono (Nat.le_of_lt hlt)).length_openAt] at hlength
  exact hlength.symm

/-- The open loops are the loop starts that nothing has closed. -/
theorem mem_openAt_iff (h : Timely ops j) : k ∈ openAt ops j ↔ OpenAt ops k j := by
  induction j using Nat.strongRecOn generalizing k with
  | ind j ih =>
    cases j with
    | zero => exact iff_of_false nofun fun hopen => Nat.not_lt_zero _ hopen.before
    | succ j =>
      have hbefore := h.mono (Nat.le_succ j)
      have hsucc := depthAt_succ ops j
      by_cases hs : ops[j]? = some .loopStart
      · rw [openAt_loopStart hs, openAt_iff_loopStart hs, List.mem_cons,
          ih j (Nat.lt_succ_self j) hbefore]
      rw [openAt_iff_succ hs, ← ih j (Nat.lt_succ_self j) hbefore]
      by_cases he : ops[j]? = some .loopEnd
      · -- the innermost loop is left, and those around it are less deep than it was
        rw [he, descent] at hsucc
        rw [openAt_loopEnd he]
        cases hj : openAt ops j with
        | nil => simp
        | cons inner outer =>
          have hdepth := hbefore.depthAt_of_cons hj
          obtain ⟨hlt, -, houter⟩ := openAt_of_cons hj
          have hmem (k : Nat) : k ∈ outer ↔ OpenAt ops k inner := by
            rw [← houter]
            exact ih inner (Nat.lt_succ_of_lt hlt) (hbefore.mono (Nat.le_of_lt hlt))
          rw [List.tail_cons, List.mem_cons]
          constructor
          · intro hk
            have hopen := (hmem k).mp hk
            have := hopen.inside inner hopen.before (Nat.le_refl _)
            exact ⟨.inr hk, by omega⟩
          · rintro ⟨rfl | hk, hlt⟩
            · omega
            · exact hk
      · have hzero : descent ops[j]? = 0 := by
          unfold descent
          split
          · contradiction
          · contradiction
          · rfl
        rw [openAt_other hs he, hsucc, hzero, Int.add_zero]
        refine (and_iff_left_of_imp fun hk => ?_).symm
        have hopen := (ih j (Nat.lt_succ_self j) hbefore).mp hk
        exact hopen.inside j hopen.before (Nat.le_refl j)

/-- At a loop end the innermost open loop is the one that it closes. -/
theorem openAt_loopEnd (h : Timely ops (m + 1)) (he : ops[m]? = some .loopEnd) :
    ∃ k rest, openAt ops m = k :: rest ∧ Closes ops k m := by
  have hbefore := h.mono (Nat.le_succ m)
  have hsucc := depthAt_succ ops m
  rw [he, descent] at hsucc
  cases hm : openAt ops m with
  | nil =>
    have hlength := hbefore.length_openAt
    have := h (m + 1) (Nat.le_refl _)
    rw [hm, List.length_nil] at hlength
    omega
  | cons k rest =>
    have hdepth := hbefore.depthAt_of_cons hm
    have hopen : OpenAt ops k m := hbefore.mem_openAt_iff.mp (by rw [hm]; exact List.mem_cons_self)
    exact ⟨k, rest, rfl, hopen.before, hopen.opening, he, hopen.inside, by omega⟩

end Timely

namespace Nested

theorem length_openAt (h : Nested ops) (j : Nat) : ((openAt ops j).length : Int) = depthAt ops j :=
  (h.timely j).length_openAt

theorem openAt_loopEnd (h : Nested ops) (he : ops[m]? = some .loopEnd) :
    ∃ k rest, openAt ops m = k :: rest ∧ Closes ops k m :=
  (h.timely (m + 1)).openAt_loopEnd he

/-- The open loops are those around the instruction. -/
theorem mem_openAt (h : Nested ops) :
    k ∈ openAt ops j ↔ ∃ m, Closes ops k m ∧ k < j ∧ j ≤ m := by
  rw [(h.timely j).mem_openAt_iff]
  constructor
  · intro hopen
    obtain ⟨m, hm, hjm⟩ := hopen.exists_closes h
    exact ⟨m, hm, hopen.before, hjm⟩
  · rintro ⟨m, hm, hk, hj⟩
    exact hm.openAt hk hj

/-- From the innermost one outwards they begin further and further in front. -/
theorem openAt_sorted (h : Nested ops) (j : Nat) : (openAt ops j).Pairwise (· > ·) := by
  induction j using Nat.strongRecOn with
  | ind j ih =>
    cases hj : openAt ops j with
    | nil => exact .nil
    | cons inner outer =>
      obtain ⟨hlt, -, houter⟩ := openAt_of_cons hj
      rw [← houter]
      exact List.pairwise_cons.mpr
        ⟨fun k hk => ((h.timely inner).mem_openAt_iff.mp hk).before, ih inner hlt⟩

/-- Behind the last instruction no loop is open. -/
theorem openAt_end (h : Nested ops) (hj : ops[j]? = none) : openAt ops j = [] := by
  have hlength := h.length_openAt j
  rw [h.closed j (List.getElem?_eq_none_iff.mp hj)] at hlength
  exact List.length_eq_zero_iff.mp (by omega)

/-- Every loop start is closed. -/
theorem exists_closes (h : Nested ops) (hk : ops[k]? = some .loopStart) : ∃ m, Closes ops k m := by
  have hopen : OpenAt ops k (k + 1) := (openAt_iff_loopStart hk).mpr (.inl rfl)
  obtain ⟨m, hm, -⟩ := hopen.exists_closes h
  exact ⟨m, hm⟩

end Nested

end TapeLang
