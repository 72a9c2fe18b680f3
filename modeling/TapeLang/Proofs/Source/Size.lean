import TapeLang.Proofs.Source.NormalForm

/-!
# The size of a program

A program has an instruction for each operation of its text that does something, less two for each
loop that becomes a reset. Joined into runs, no more operations do something, and every loop that
clears its cell still does, so no optimisation makes a program longer.

* `active`, `clears`: operations that do something, and loops that clear their cell.
* `length_reduce`: the two of them give the length of what is reduced.
* `active_blocks_le`, `clears_le_blocks`: what joining does to each of them.
* `size_optimised_le`: more optimisations make no program longer.
-/

namespace TapeLang

namespace Optimisations

/-- All that the first simplifies, the second does too. -/
instance : LE Optimisations where
  le F G := (F.joinRuns = true → G.joinRuns = true) ∧ (F.clearLoops = true → G.clearLoops = true)

end Optimisations

namespace Source

/-! ## Counting operations -/

/-- How many operations do something. -/
def active (ops : List Op) : Nat := ops.countP fun op => !op.isIdle

/-- How many loops clear their cell. -/
def clears : List Op → Nat
  | [] => 0
  | op :: rest => (if op = .loopStart ∧ (behindClear? rest).isSome then 1 else 0) + clears rest

theorem active_append (ops more : List Op) : active (ops ++ more) = active ops + active more :=
  List.countP_append

theorem active_cons {op : Op} (h : op.isIdle = false) (ops : List Op) :
    active (op :: ops) = active ops + 1 := List.countP_cons_of_pos (by simp [h])

theorem active_cons_of_isIdle {op : Op} (h : op.isIdle) (ops : List Op) :
    active (op :: ops) = active ops := List.countP_cons_of_neg (by simp [h])

theorem active_of_forall_isIdle {ops : List Op} (h : ∀ op ∈ ops, op.isIdle) : active ops = 0 :=
  List.countP_eq_zero.mpr fun op hop => by simp [h op hop]

theorem clears_cons {op : Op} (h : op ≠ .loopStart) (ops : List Op) :
    clears (op :: ops) = clears ops := by
  rw [clears, if_neg fun hop => h hop.1, Nat.zero_add]

theorem clears_append {ops : List Op} (h : ∀ op ∈ ops, op ≠ .loopStart) (more : List Op) :
    clears (ops ++ more) = clears more := by
  induction ops with
  | nil => rfl
  | cons op ops ih =>
    rw [List.cons_append, clears_cons (h op List.mem_cons_self),
      ih fun a ha => h a (List.mem_cons_of_mem op ha)]

/-- A loop that clears its cell is counted once, and there is none inside it. -/
theorem clears_of_behindClear? {rest behind : List Op} (h : behindClear? rest = some behind) :
    clears (.loopStart :: rest) = clears behind + 1 := by
  obtain ⟨idle, step, rfl, hidle, hu⟩ := behindClear?_eq_some.mp h
  have hbody : ∀ op ∈ idle ++ [step, .loopEnd], op ≠ .loopStart := by
    intro op hop
    rcases List.mem_append.mp hop with hop | hop
    · rintro rfl
      cases hidle _ hop
    · rcases List.mem_pair.mp hop with rfl | rfl
      · rintro rfl
        cases hu
      · exact nofun
  have hsplit : idle ++ step :: .loopEnd :: behind = (idle ++ [step, .loopEnd]) ++ behind := by simp
  rw [clears, if_pos ⟨rfl, by simp [h]⟩, hsplit, clears_append hbody, Nat.add_comm]

theorem active_of_behindClear? {rest behind : List Op} (h : behindClear? rest = some behind) :
    active (.loopStart :: rest) = active behind + 3 := by
  obtain ⟨idle, step, rfl, hidle, hu⟩ := behindClear?_eq_some.mp h
  rw [active_cons rfl, active_append, active_of_forall_isIdle hidle,
    active_cons (isIdle_of_isUnitAdd hu), active_cons rfl]
  omega

theorem clears_loopStart {rest : List Op} (h : behindClear? rest = none) :
    clears (.loopStart :: rest) = clears rest := by
  rw [clears, if_neg (by simp [h]), Nat.zero_add]

/-- A reset stands for three operations. -/
theorem length_reduce_clear (ops : List Op) :
    (reduce true ops).length + 2 * clears ops = active ops := by
  fun_induction reduce true ops with
  | case1 => rfl
  | case2 rest behind hb hc ih =>
    rw [List.length_cons, clears_of_behindClear? hb, active_of_behindClear? hb]
    omega
  | case3 rest behind hb hc ih => exact absurd rfl hc
  | case4 rest hb ih =>
    rw [List.length_cons, clears_loopStart hb, active_cons rfl]
    omega
  | case5 op rest hop hi ih => rw [clears_cons hop, active_cons_of_isIdle hi, ih]
  | case6 op rest hop hi ih =>
    rw [List.length_cons, clears_cons hop, active_cons (by simpa using hi)]
    omega

theorem length_reduce_keep (ops : List Op) : (reduce false ops).length = active ops := by
  fun_induction reduce false ops with
  | case1 => rfl
  | case2 rest behind hb hc ih => cases hc
  | case3 rest behind hb hc ih => rw [List.length_cons, active_cons rfl, ih]
  | case4 rest hb ih => rw [List.length_cons, active_cons rfl, ih]
  | case5 op rest hop hi ih => rw [active_cons_of_isIdle hi, ih]
  | case6 op rest hop hi ih => rw [List.length_cons, active_cons (by simpa using hi), ih]

/-- What is left of operations: two are saved for each loop that is cleared. -/
theorem length_reduce (clearLoops : Bool) (ops : List Op) :
    (reduce clearLoops ops).length + (if clearLoops then 2 * clears ops else 0) = active ops := by
  cases clearLoops with
  | false => exact length_reduce_keep ops
  | true => exact length_reduce_clear ops

/-- Less is left where fewer operations do something and more loops are cleared. -/
theorem length_reduce_mono {ops more : List Op} {F G : Bool} (hactive : active ops ≤ active more)
    (hclears : clears more ≤ clears ops) (hFG : F = true → G = true) :
    (reduce G ops).length ≤ (reduce F more).length := by
  have hops := length_reduce G ops
  have hmore := length_reduce F more
  cases F with
  | false =>
    rw [if_neg (by decide)] at hmore
    omega
  | true =>
    rw [if_pos (hFG rfl)] at hops
    rw [if_pos rfl] at hmore
    omega

/-! ## Joining -/

variable {length : Nat} {ch : Char} {bs : List (List Char)}

theorem isUnitAdd_commandOp (h : isAddition ch) (length : Nat) :
    (commandOp length ch).isUnitAdd := by
  simp only [isAddition, Bool.or_eq_true, beq_iff_eq] at h
  rcases h with rfl | rfl <;> rfl

/-- A single step of the pointer does nothing on a tape of one cell only. -/
theorem isIdle_commandOp_iff (hpos : 0 < length) (h : isMovement ch) :
    (commandOp length ch).isIdle ↔ length = 1 := by
  have hcount : (commandOp length ch).count = 1 % length ∨
      (commandOp length ch).count = (length - 1) % length := by
    simp only [isMovement, Bool.or_eq_true, beq_iff_eq] at h
    rcases h with rfl | rfl
    · exact .inl (net_forward (by decide) hpos)
    · exact .inr (net_back (by decide) hpos)
  rw [Op.isIdle, beq_iff_eq]
  constructor
  · intro hzero
    by_contra hne
    have hone : 1 % length = 1 := Nat.mod_eq_of_lt (by omega)
    have hback : (length - 1) % length = length - 1 := Nat.mod_eq_of_lt (by omega)
    omega
  · rintro rfl
    rcases hcount with hcount | hcount <;> simpa using hcount

/-- One operation for a block is no more than one for each of its commands. -/
theorem active_blockOp_le (hpos : 0 < length) {joinRuns : Bool} {block : List Char}
    (h : IsBlock joinRuns block) :
    active [blockOp length block] ≤ active (block.map (commandOp length)) := by
  cases h with
  | single => exact Nat.le_refl _
  | @additions ch rest _ h =>
    have hidle := isIdle_of_isUnitAdd (isUnitAdd_commandOp (h ch List.mem_cons_self) length)
    rw [List.map_cons, active_cons hidle]
    exact Nat.le_trans List.countP_le_length (Nat.le_add_left 1 _)
  | @movements ch rest _ h =>
    have hmove := h ch List.mem_cons_self
    by_cases hone : length = 1
    · have hidle : (blockOp length (ch :: rest)).isIdle := by
        rw [blockOp_of_isMovement hmove, Op.isIdle, beq_iff_eq, Op.count]
        have hlt := net_lt hpos '>' '<' (ch :: rest)
        omega
      rw [active_cons_of_isIdle hidle]
      exact Nat.zero_le _
    · have hidle : (commandOp length ch).isIdle = false :=
        Bool.eq_false_iff.mpr fun hi => hone ((isIdle_commandOp_iff hpos hmove).mp hi)
      rw [List.map_cons, active_cons hidle]
      exact Nat.le_trans List.countP_le_length (Nat.le_add_left 1 _)

theorem active_blocks_le (hpos : 0 < length) {joinRuns : Bool} (h : ∀ b ∈ bs, IsBlock joinRuns b) :
    active (bs.map (blockOp length)) ≤ active (bs.flatten.map (commandOp length)) := by
  induction bs with
  | nil => exact Nat.le_refl 0
  | cons b bs ih =>
    have hb := active_blockOp_le hpos (h b List.mem_cons_self)
    have hbs := ih fun a ha => h a (List.mem_cons_of_mem b ha)
    rw [List.flatten_cons, List.map_append, active_append, List.map_cons, ← List.singleton_append,
      active_append]
    exact Nat.add_le_add hb hbs

theorem behindClear?_append_idle {idle : List Op} (h : ∀ op ∈ idle, op.isIdle) (ops : List Op) :
    behindClear? (idle ++ ops) = behindClear? ops := by
  rw [behindClear?, List.dropWhile_append_of_pos h, ← behindClear?]

/-- The end of a loop stands alone. -/
theorem exists_loopEnd_blocks {joinRuns : Bool} (h : ∀ b ∈ bs, IsBlock joinRuns b)
    {behind : List Op} (hend : bs.flatten.map (commandOp length) = .loopEnd :: behind) :
    ∃ more, bs.map (blockOp length) = .loopEnd :: more := by
  cases bs with
  | nil => cases hend
  | cons b bs =>
    cases h b List.mem_cons_self with
    | single => exact ⟨_, congrArg (· :: _) (List.cons.inj hend).1⟩
    | @additions ch rest _ hall =>
      have hop : commandOp length ch = .loopEnd := (List.cons.inj hend).1
      have hu := isUnitAdd_commandOp (hall ch List.mem_cons_self) length
      rw [hop] at hu
      cases hu
    | @movements ch rest _ hall =>
      have hop : commandOp length ch = .loopEnd := (List.cons.inj hend).1
      rw [commandOp, blockOp_of_isMovement (hall ch List.mem_cons_self)] at hop
      cases hop

/-- A loop that ends behind its first command does so when the runs behind it are joined. -/
theorem exists_behindClear?_single {joinRuns : Bool} (h : ∀ b ∈ bs, IsBlock joinRuns b) {ch : Char}
    (hi : (commandOp length ch).isIdle = false) {behind : List Op}
    (hclear : behindClear? (commandOp length ch :: bs.flatten.map (commandOp length)) =
      some behind) :
    ∃ more, behindClear? (commandOp length ch :: bs.map (blockOp length)) = some more := by
  obtain ⟨hu, hend⟩ := (behindClear?_cons hi).mp hclear
  obtain ⟨more, hmore⟩ := exists_loopEnd_blocks h hend
  exact ⟨more, (behindClear?_cons hi).mpr ⟨hu, hmore⟩⟩

/-- On a tape of one cell no movement does anything. -/
theorem isIdle_blockOp_of_single (hone : length = 1) {ch : Char} (h : isMovement ch)
    (rest : List Char) : (blockOp length (ch :: rest)).isIdle := by
  rw [blockOp_of_isMovement h, Op.isIdle, beq_iff_eq, Op.count]
  have hlt := net_lt (hone ▸ Nat.one_pos) '>' '<' (ch :: rest)
  omega

/-- If a loop clears its cell step by step, it does so when its runs are joined. -/
theorem exists_behindClear?_blocks (hpos : 0 < length) {joinRuns : Bool}
    (h : ∀ b ∈ bs, IsBlock joinRuns b) {behind : List Op}
    (hclear : behindClear? (bs.flatten.map (commandOp length)) = some behind) :
    ∃ more, behindClear? (bs.map (blockOp length)) = some more := by
  induction bs with
  | nil => cases hclear
  | cons b bs ih =>
    have hbs : ∀ a ∈ bs, IsBlock joinRuns a := fun a ha => h a (List.mem_cons_of_mem b ha)
    cases h b List.mem_cons_self with
    | @single ch hch =>
      cases hi : (commandOp length ch).isIdle with
      | false => exact exists_behindClear?_single hbs hi hclear
      | true =>
        have hidle : ∀ op ∈ [commandOp length ch], op.isIdle := by simpa using hi
        have hrest := ih hbs (behindClear?_append_idle hidle _ ▸ hclear)
        rwa [← behindClear?_append_idle hidle] at hrest
    | @additions ch rest _ hall =>
      have hi := isIdle_of_isUnitAdd (isUnitAdd_commandOp (hall ch List.mem_cons_self) length)
      cases rest with
      | nil => exact exists_behindClear?_single hbs hi hclear
      | cons a rest =>
        obtain ⟨-, hend⟩ := (behindClear?_cons hi).mp hclear
        have hop : commandOp length a = .loopEnd := (List.cons.inj hend).1
        have hu := isUnitAdd_commandOp (hall a (by simp)) length
        rw [hop] at hu
        cases hu
    | @movements ch rest _ hall =>
      have hmove := hall ch List.mem_cons_self
      cases hi : (commandOp length ch).isIdle with
      | false =>
        obtain ⟨hu, -⟩ := (behindClear?_cons hi).mp hclear
        rw [commandOp, blockOp_of_isMovement hmove] at hu
        cases hu
      | true =>
        have hone := (isIdle_commandOp_iff hpos hmove).mp hi
        have hsteps : ∀ op ∈ (ch :: rest).map (commandOp length), op.isIdle := by
          intro op hop
          obtain ⟨a, ha, rfl⟩ := List.mem_map.mp hop
          exact (isIdle_commandOp_iff hpos (hall a ha)).mpr hone
        have hidle : ∀ op ∈ [blockOp length (ch :: rest)], op.isIdle :=
          List.forall_mem_singleton.mpr (isIdle_blockOp_of_single hone hmove rest)
        rw [List.flatten_cons, List.map_append, behindClear?_append_idle hsteps] at hclear
        have hrest := ih hbs hclear
        rwa [← behindClear?_append_idle hidle] at hrest

/-- Joining leaves every loop that clears its cell. -/
theorem clears_le_blocks (hpos : 0 < length) {joinRuns : Bool} (h : ∀ b ∈ bs, IsBlock joinRuns b) :
    clears (bs.flatten.map (commandOp length)) ≤ clears (bs.map (blockOp length)) := by
  induction bs with
  | nil => exact Nat.le_refl 0
  | cons b bs ih =>
    have hbs : ∀ a ∈ bs, IsBlock joinRuns a := fun a ha => h a (List.mem_cons_of_mem b ha)
    have hrest := ih hbs
    -- no loop starts in a run
    have hrun (ch : Char) (rest : List Char)
        (hsteps : ∀ a ∈ ch :: rest, commandOp length a ≠ .loopStart)
        (hop : blockOp length (ch :: rest) ≠ .loopStart) :
        clears ((ch :: rest).map (commandOp length) ++ bs.flatten.map (commandOp length)) ≤
          clears (blockOp length (ch :: rest) :: bs.map (blockOp length)) := by
      rw [clears_append (List.forall_mem_map.mpr hsteps), clears_cons hop]
      exact hrest
    rw [List.flatten_cons, List.map_append, List.map_cons]
    cases h b List.mem_cons_self with
    | @single ch hch =>
      rw [List.map_singleton, List.singleton_append, clears, clears]
      by_cases hc : commandOp length ch = .loopStart ∧
          (behindClear? (bs.flatten.map (commandOp length))).isSome
      · obtain ⟨behind, hbehind⟩ := Option.isSome_iff_exists.mp hc.2
        obtain ⟨more, hmore⟩ := exists_behindClear?_blocks hpos hbs hbehind
        rw [if_pos hc, if_pos ⟨hc.1, by rw [hmore]; rfl⟩]
        exact Nat.add_le_add_left hrest 1
      · rw [if_neg hc, Nat.zero_add]
        exact Nat.le_trans hrest (Nat.le_add_left _ _)
    | @additions ch rest _ hall =>
      refine hrun ch rest (fun a ha => ?_) ?_
      · rw [commandOp, blockOp_of_isAddition (hall a ha)]
        exact nofun
      · rw [blockOp_of_isAddition (hall ch List.mem_cons_self)]
        exact nofun
    | @movements ch rest _ hall =>
      refine hrun ch rest (fun a ha => ?_) ?_
      · rw [commandOp, blockOp_of_isMovement (hall a ha)]
        exact nofun
      · rw [blockOp_of_isMovement (hall ch List.mem_cons_self)]
        exact nofun

/-- Where runs are not joined, each command is a block. -/
theorem map_blocks_single (length : Nat) (text : List Char) :
    (blocks false text).map (blockOp length) = (commands text).map (commandOp length) := by
  have hsingle {bs : List (List Char)} (h : ∀ b ∈ bs, IsBlock false b) :
      bs.map (blockOp length) = bs.flatten.map (commandOp length) := by
    induction bs with
    | nil => rfl
    | cons b bs ih =>
      have hbs := ih fun a ha => h a (List.mem_cons_of_mem b ha)
      rw [List.map_cons, List.flatten_cons, List.map_append, hbs]
      cases h b List.mem_cons_self with
      | single => rfl
      | additions hj => cases hj
      | movements hj => cases hj
  rw [hsingle fun b => isBlock_of_mem_blocks, blocks, List.flatten_splitBy]

/-! ## Programs -/

/-- A text is reduced to no more operations if more is simplified. -/
theorem length_normalForm_mono (hpos : 0 < length) {F G : Optimisations} (hFG : F ≤ G)
    (text : List Char) :
    (normalForm length G text).length ≤ (normalForm length F text).length := by
  by_cases hj : F.joinRuns = G.joinRuns
  · rw [normalForm, normalForm, hj]
    exact length_reduce_mono (Nat.le_refl _) (Nat.le_refl _) hFG.2
  · have hF : F.joinRuns = false := Bool.eq_false_iff.mpr fun h => hj (h.trans (hFG.1 h).symm)
    have hflat : (commands text) = (blocks G.joinRuns text).flatten := by
      rw [blocks, List.flatten_splitBy]
    rw [normalForm, normalForm, hF, map_blocks_single, hflat]
    exact length_reduce_mono (active_blocks_le hpos fun b => isBlock_of_mem_blocks)
      (clears_le_blocks hpos fun b => isBlock_of_mem_blocks) hFG.2

/-- No more operations are left than there are commands. -/
theorem length_normalForm_le (length : Nat) (hpos : 0 < length) (o : Optimisations)
    (text : List Char) : (normalForm length o text).length ≤ (commands text).length := by
  have hreduce := length_reduce o.clearLoops ((blocks o.joinRuns text).map (blockOp length))
  have hactive := @active_blocks_le length (blocks o.joinRuns text) hpos o.joinRuns
    fun b => isBlock_of_mem_blocks
  have hflat : (blocks o.joinRuns text).flatten = commands text := List.flatten_splitBy ..
  have hcommands : active ((commands text).map (commandOp length)) ≤ (commands text).length :=
    Nat.le_trans List.countP_le_length (Nat.le_of_eq (List.length_map ..))
  rw [hflat] at hactive
  rw [normalForm]
  omega

theorem length_ops (p : Program) : p.ops.length = p.size := by
  rw [Program.ops, List.length_map, Array.length_toList, Program.size]

/-- The more is simplified, the shorter the program, and none has more instructions than its text
has commands. -/
theorem size_optimised_le {source : String} {c : Config} {r : Program}
    (h : parse source c = .ok r) {F G : Optimisations} (hFG : F ≤ G) :
    ∃ p q, parse source (c.withOptimisations F) = .ok p ∧
      parse source (c.withOptimisations G) = .ok q ∧
      q.size ≤ p.size ∧ p.size ≤ (commands source.toList).length := by
  obtain ⟨p, hp⟩ := parse_withOptimisations h F
  obtain ⟨q, hq⟩ := parse_withOptimisations h G
  refine ⟨p, q, hp, hq, ?_, ?_⟩
  · rw [← length_ops, ← length_ops, ops_of_parse hp, ops_of_parse hq]
    exact length_normalForm_mono c.tapeLength_pos hFG source.toList
  · rw [← length_ops, ops_of_parse hp]
    exact length_normalForm_le _ c.tapeLength_pos _ _

/-- On a tape of one cell a move in front of the step does not keep a loop from being cleared. -/
theorem size_optimised_le_single : ∃ p q : Program,
    parse "[>-]+-." ⟨1, 2, ⟨false, false⟩, by decide, by decide⟩ = .ok p ∧
    parse "[>-]+-." ⟨1, 2, .all, by decide, by decide⟩ = .ok q ∧
    p.size = 6 ∧ q.size = 2 ∧ q.size ≤ p.size ∧
      p.size ≤ (commands "[>-]+-.".toList).length := by
  obtain ⟨r, hr⟩ : ∃ r, parse "[>-]+-." ⟨1, 2, .all, by decide, by decide⟩ = .ok r := ⟨_, rfl⟩
  obtain ⟨p, q, hp, hq, hle, hcommands⟩ := size_optimised_le hr
    (show (⟨false, false⟩ : Optimisations) ≤ .all from ⟨fun _ => rfl, fun _ => rfl⟩)
  have hpsize : p.size = 6 := by
    obtain ⟨p', hp', hsize⟩ : ∃ p', parse "[>-]+-." ⟨1, 2, ⟨false, false⟩, by decide, by decide⟩ =
        .ok p' ∧ p'.size = 6 := ⟨_, rfl, by decide +kernel⟩
    cases hp'.symm.trans hp
    exact hsize
  have hqsize : q.size = 2 := by
    obtain ⟨q', hq', hsize⟩ : ∃ q', parse "[>-]+-." ⟨1, 2, .all, by decide, by decide⟩ =
        .ok q' ∧ q'.size = 2 := ⟨_, rfl, by decide +kernel⟩
    cases hq'.symm.trans hq
    exact hsize
  exact ⟨p, q, hp, hq, hpsize, hqsize, hle, hcommands⟩

end Source

end TapeLang
