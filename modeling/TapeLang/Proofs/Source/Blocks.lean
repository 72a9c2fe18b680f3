import Mathlib.Data.List.SplitBy
import Mathlib.Data.List.TakeWhile
import TapeLang.Config
import TapeLang.Proofs.Source.Brackets

/-!
# Blocks of commands

What a text spells, said without reading it command by command. All that is no command is dropped,
and the rest is cut into blocks: a run of additions, a run of moves, or a single command if runs are
not joined; every other command stands alone. Each block is one operation, with the net sum of its
steps.

* `Source.blocks`, `Source.blockOp`: the blocks of a text, and the operation of each.
* `Source.reduce`: loops that clear their cell become resets, and idle operations are dropped.
* `Source.normalForm`: the operations of a whole text.
* `Source.brackets_normalForm`: the brackets of the text are still there.
-/

namespace TapeLang

namespace Source

def isAddition (ch : Char) : Bool := ch == '+' || ch == '-'

def isMovement (ch : Char) : Bool := ch == '>' || ch == '<'

def isCommand (ch : Char) : Bool :=
  isAddition ch || isMovement ch || ch == ',' || ch == '.' || ch == '[' || ch == ']'

/-- The commands of a text, without its comments. -/
def commands (text : List Char) : List Char := text.filter isCommand

/-- Whether two neighbouring commands are in one block. -/
def joins (joinRuns : Bool) (a b : Char) : Bool :=
  joinRuns && (isAddition a && isAddition b || isMovement a && isMovement b)

def blocks (joinRuns : Bool) (text : List Char) : List (List Char) :=
  (commands text).splitBy (joins joinRuns)

/-- Steps forward less steps back, counted round the circle. -/
def net (forward back : Char) (modulus : Nat) (block : List Char) : Nat :=
  (((block.count forward : Int) - block.count back) % modulus).toNat

/-- The operation of a block. Its first command tells which kind it is. -/
def blockOp (length : Nat) (block : List Char) : Op :=
  match block.head? with
  | some '[' => .loopStart
  | some ']' => .loopEnd
  | some ',' => .read
  | some '.' => .write
  | some '+' => .add (net '+' '-' cellModulus block)
  | some '-' => .add (net '+' '-' cellModulus block)
  | _ => .move (net '>' '<' length block)

/-- What is behind the end of a loop of which this is the body, if the loop clears its cell: its
last operation is a single step, and all before that are idle. -/
def behindClear? (body : List Op) : Option (List Op) :=
  match body.dropWhile Op.isIdle with
  | step :: .loopEnd :: behind => if step.isUnitAdd then some behind else none
  | _ => none

theorem behindClear?_eq_some {body behind : List Op} :
    behindClear? body = some behind ↔
      ∃ idle step, body = idle ++ step :: .loopEnd :: behind ∧ (∀ op ∈ idle, op.isIdle) ∧
        step.isUnitAdd := by
  constructor
  · intro h
    unfold behindClear? at h
    split at h
    case h_1 step behind' hd =>
      split at h
      case isTrue hu =>
        obtain rfl := Option.some.inj h
        refine ⟨body.takeWhile Op.isIdle, step, ?_, fun op hop => List.mem_takeWhile_imp hop, hu⟩
        rw [← hd, List.takeWhile_append_dropWhile]
      case isFalse => cases h
    case h_2 => cases h
  · rintro ⟨idle, step, rfl, hidle, hu⟩
    have hstep : step.isIdle = false := by
      simp only [Op.isUnitAdd, Bool.or_eq_true, beq_iff_eq] at hu
      rcases hu with rfl | rfl <;> rfl
    rw [behindClear?, List.dropWhile_append_of_pos hidle,
      List.dropWhile_cons_of_neg (by simp [hstep])]
    exact if_pos hu

theorem behindClear?_cons {op : Op} (h : op.isIdle = false) {rest behind : List Op} :
    behindClear? (op :: rest) = some behind ↔ op.isUnitAdd ∧ rest = .loopEnd :: behind := by
  rw [behindClear?, List.dropWhile_cons_of_neg (by simp [h])]
  constructor
  · intro hb
    split at hb
    case h_1 hd =>
      obtain ⟨rfl, rfl⟩ := List.cons.inj hd
      split at hb
      case isTrue hu => exact ⟨hu, by rw [Option.some.inj hb]⟩
      case isFalse => cases hb
    case h_2 => cases hb
  · rintro ⟨hu, rfl⟩
    exact if_pos hu

theorem length_behindClear? {body behind : List Op} (h : behindClear? body = some behind) :
    behind.length < body.length := by
  obtain ⟨idle, step, rfl, -, -⟩ := behindClear?_eq_some.mp h
  simp
  omega

/-- Without idle operations and, if they are to be cleared, with a reset for each loop that clears
its cell. -/
def reduce (clearLoops : Bool) : List Op → List Op
  | [] => []
  | .loopStart :: rest =>
    match _h : behindClear? rest with
    | some behind =>
      if clearLoops then .reset :: reduce clearLoops behind
      else .loopStart :: reduce clearLoops rest
    | none => .loopStart :: reduce clearLoops rest
  | op :: rest => if op.isIdle then reduce clearLoops rest else op :: reduce clearLoops rest
termination_by ops => ops.length
decreasing_by
  all_goals first
    | exact Nat.lt_succ_of_lt (length_behindClear? ‹_›)
    | exact Nat.lt_succ_self _

/-- The operations that a text spells on a tape of `length` cells. -/
def normalForm (length : Nat) (o : Optimisations) (text : List Char) : List Op :=
  reduce o.clearLoops ((blocks o.joinRuns text).map (blockOp length))

/-! ## Reducing -/

@[simp] theorem reduce_nil (clearLoops : Bool) : reduce clearLoops [] = [] := by rw [reduce]

theorem reduce_clear {rest behind : List Op} (h : behindClear? rest = some behind) :
    reduce true (.loopStart :: rest) = .reset :: reduce true behind := by
  rw [reduce]
  split
  case h_1 behind' h' =>
    obtain rfl := Option.some.inj (h.symm.trans h')
    rfl
  case h_2 h' => cases h.symm.trans h'

theorem reduce_loopStart {clearLoops : Bool} {rest : List Op}
    (h : clearLoops = true → behindClear? rest = none) :
    reduce clearLoops (.loopStart :: rest) = .loopStart :: reduce clearLoops rest := by
  rw [reduce]
  split
  case h_1 behind h' =>
    cases clearLoops with
    | false => rfl
    | true => cases (h rfl).symm.trans h'
  case h_2 => rfl

theorem reduce_idle {clearLoops : Bool} {op : Op} (h : op.isIdle) (rest : List Op) :
    reduce clearLoops (op :: rest) = reduce clearLoops rest := by
  have hop : op ≠ .loopStart := by rintro rfl; cases h
  rw [reduce, if_pos h]
  exact hop

theorem reduce_cons {clearLoops : Bool} {op : Op} (hop : op ≠ .loopStart) (h : op.isIdle = false)
    (rest : List Op) : reduce clearLoops (op :: rest) = op :: reduce clearLoops rest := by
  rw [reduce, if_neg (by simp [h])]
  exact hop

/-- Nothing new comes of reducing but resets. -/
theorem mem_reduce {clearLoops : Bool} {ops : List Op} {op : Op} (h : op ∈ reduce clearLoops ops) :
    op = .reset ∧ clearLoops ∨ op ∈ ops ∧ op.isIdle = false := by
  fun_induction reduce clearLoops ops with
  | case1 => cases h
  | case2 rest behind hb hc ih =>
    obtain ⟨idle, step, rfl, -, -⟩ := behindClear?_eq_some.mp hb
    rcases List.mem_cons.mp h with rfl | h
    · exact .inl ⟨rfl, hc⟩
    · exact (ih h).imp_right fun h => ⟨by simp [h.1], h.2⟩
  | case3 rest behind hb hc ih =>
    rcases List.mem_cons.mp h with rfl | h
    · exact .inr ⟨by simp, rfl⟩
    · exact (ih h).imp_right fun h => ⟨by simp [h.1], h.2⟩
  | case4 rest hb ih =>
    rcases List.mem_cons.mp h with rfl | h
    · exact .inr ⟨by simp, rfl⟩
    · exact (ih h).imp_right fun h => ⟨by simp [h.1], h.2⟩
  | case5 op' rest hop hi ih => exact (ih h).imp_right fun h => ⟨by simp [h.1], h.2⟩
  | case6 op' rest hop hi ih =>
    rcases List.mem_cons.mp h with rfl | h
    · exact .inr ⟨by simp, by simpa using hi⟩
    · exact (ih h).imp_right fun h => ⟨by simp [h.1], h.2⟩

/-! ## Brackets -/

/-- A reset stands for a loop. -/
def opBrackets : Op → List Bracket
  | .loopStart => [.opening]
  | .loopEnd => [.closing]
  | .reset => [.opening, .closing]
  | _ => []

theorem opBrackets_of_isIdle {op : Op} (h : op.isIdle) : opBrackets op = [] := by
  cases op <;> first | rfl | cases h

theorem opBrackets_of_isUnitAdd {op : Op} (h : op.isUnitAdd) : opBrackets op = [] := by
  simp only [Op.isUnitAdd, Bool.or_eq_true, beq_iff_eq] at h
  rcases h with rfl | rfl <;> rfl

theorem opBrackets_reduce (clearLoops : Bool) (ops : List Op) :
    (reduce clearLoops ops).flatMap opBrackets = ops.flatMap opBrackets := by
  fun_induction reduce clearLoops ops with
  | case1 => rfl
  | case2 rest behind hb hc ih =>
    obtain ⟨idle, step, rfl, hidle, hu⟩ := behindClear?_eq_some.mp hb
    have hnone : idle.flatMap opBrackets = [] :=
      List.flatMap_eq_nil_iff.mpr fun op hop => opBrackets_of_isIdle (hidle op hop)
    simp [ih, hnone, opBrackets_of_isUnitAdd hu]
    rfl
  | case3 rest behind hb hc ih => simp [ih]
  | case4 rest hb ih => simp [ih]
  | case5 op rest hop hi ih => simp [ih, opBrackets_of_isIdle hi]
  | case6 op rest hop hi ih => simp [ih]

/-! ## The shape of a block -/

theorem isMovement_of_isAddition {ch : Char} (h : isAddition ch) : isMovement ch = false := by
  simp only [isAddition, Bool.or_eq_true, beq_iff_eq] at h
  rcases h with rfl | rfl <;> rfl

theorem joins_of_isAddition {joinRuns : Bool} {a b : Char} (ha : isAddition a)
    (h : joins joinRuns a b) : isAddition b := by
  simp [joins, ha, isMovement_of_isAddition ha] at h
  exact h.2

theorem joins_of_isMovement {joinRuns : Bool} {a b : Char} (ha : isMovement a)
    (h : joins joinRuns a b) : isMovement b := by
  have hadd : isAddition a = false := by
    cases hadd : isAddition a with
    | false => rfl
    | true => cases (isMovement_of_isAddition hadd).symm.trans ha
  simp [joins, ha, hadd] at h
  exact h.2

/-- A property that `joins` hands on holds of a whole block. -/
theorem forall_of_isChain {joinRuns : Bool} {p : Char → Bool}
    (hp : ∀ {a b}, p a → joins joinRuns a b → p b) {ch : Char} {rest : List Char}
    (h : (ch :: rest).IsChain fun a b => joins joinRuns a b) (hc : p ch) :
    ∀ a ∈ ch :: rest, p a := by
  induction rest generalizing ch with
  | nil => simpa using hc
  | cons b rest ih =>
    rw [List.isChain_cons_cons] at h
    have hrest := ih h.2 (hp hc h.1)
    intro a ha
    rcases List.mem_cons.mp ha with rfl | ha
    · exact hc
    · exact hrest a ha

theorem isCommand_cases {ch : Char} (h : isCommand ch) :
    isAddition ch ∨ isMovement ch ∨ ch = ',' ∨ ch = '.' ∨ ch = '[' ∨ ch = ']' := by
  simpa [isCommand, or_assoc] using h

/-- A block is a single command or, if runs are joined, a run of one kind. -/
inductive IsBlock (joinRuns : Bool) : List Char → Prop
  | single {ch : Char} : isCommand ch → IsBlock joinRuns [ch]
  | additions {ch : Char} {rest : List Char} : joinRuns = true →
    (∀ a ∈ ch :: rest, isAddition a) → IsBlock joinRuns (ch :: rest)
  | movements {ch : Char} {rest : List Char} : joinRuns = true →
    (∀ a ∈ ch :: rest, isMovement a) → IsBlock joinRuns (ch :: rest)

theorem isCommand_of_mem_isBlock {joinRuns : Bool} {block : List Char}
    (h : IsBlock joinRuns block) {ch : Char} (hch : ch ∈ block) : isCommand ch := by
  cases h with
  | single hc => exact List.mem_singleton.mp hch ▸ hc
  | additions _ h => simp [isCommand, h ch hch]
  | movements _ h => simp [isCommand, h ch hch]

theorem isBlock_of_isChain {joinRuns : Bool} {block : List Char} (hne : block ≠ [])
    (hc : ∀ ch ∈ block, isCommand ch) (h : block.IsChain fun a b => joins joinRuns a b) :
    IsBlock joinRuns block := by
  match block, hne, h with
  | [ch], _, _ => exact .single (hc ch (by simp))
  | ch :: b :: rest, _, h =>
    have hj := (List.isChain_cons_cons.mp h).1
    simp only [joins, Bool.and_eq_true, Bool.or_eq_true] at hj
    rcases hj with ⟨hj, ha | hm⟩
    · exact .additions hj (forall_of_isChain joins_of_isAddition h ha.1)
    · exact .movements hj (forall_of_isChain joins_of_isMovement h hm.1)

theorem isBlock_of_mem_blocks {joinRuns : Bool} {text block : List Char}
    (h : block ∈ blocks joinRuns text) : IsBlock joinRuns block := by
  refine isBlock_of_isChain (List.ne_nil_of_mem_splitBy h) (fun ch hch => ?_)
    (List.isChain_of_mem_splitBy h)
  have hmem : ch ∈ (blocks joinRuns text).flatten := List.mem_flatten.mpr ⟨block, h, hch⟩
  rw [blocks, List.flatten_splitBy] at hmem
  exact (List.mem_filter.mp hmem).2

theorem blockOp_of_isAddition {ch : Char} (h : isAddition ch) (length : Nat) (rest : List Char) :
    blockOp length (ch :: rest) = .add (net '+' '-' cellModulus (ch :: rest)) := by
  simp only [isAddition, Bool.or_eq_true, beq_iff_eq] at h
  rcases h with rfl | rfl <;> rfl

theorem blockOp_of_isMovement {ch : Char} (h : isMovement ch) (length : Nat) (rest : List Char) :
    blockOp length (ch :: rest) = .move (net '>' '<' length (ch :: rest)) := by
  simp only [isMovement, Bool.or_eq_true, beq_iff_eq] at h
  rcases h with rfl | rfl <;> rfl

/-- A block that moves is made of moves. -/
theorem forall_isMovement {joinRuns : Bool} {length : Nat} {block : List Char}
    (h : IsBlock joinRuns block) {n : Nat}
    (hop : blockOp length block = .move n) : ∀ ch ∈ block, isMovement ch := by
  cases h with
  | @single ch hc =>
    rcases isCommand_cases hc with h | h | rfl | rfl | rfl | rfl
    · rw [blockOp_of_isAddition h] at hop
      cases hop
    · simpa using h
    all_goals cases hop
  | additions _ h =>
    rw [blockOp_of_isAddition (h _ (List.mem_cons_self ..))] at hop
    cases hop
  | movements _ h => exact h

/-- A block that adds is made of additions. -/
theorem forall_isAddition {joinRuns : Bool} {length : Nat} {block : List Char}
    (h : IsBlock joinRuns block) {n : Nat}
    (hop : blockOp length block = .add n) : ∀ ch ∈ block, isAddition ch := by
  cases h with
  | @single ch hc =>
    rcases isCommand_cases hc with h | h | rfl | rfl | rfl | rfl
    · simpa using h
    · rw [blockOp_of_isMovement h] at hop
      cases hop
    all_goals cases hop
  | additions _ h => exact h
  | movements _ h =>
    rw [blockOp_of_isMovement (h _ (List.mem_cons_self ..))] at hop
    cases hop

/-- A character of a block tells its kind. -/
theorem exists_blockOp {joinRuns : Bool} {block : List Char} (h : IsBlock joinRuns block)
    {ch : Char} (hch : ch ∈ block) (length : Nat) :
    (isAddition ch → ∃ n, blockOp length block = .add n) ∧
      (isMovement ch → ∃ n, blockOp length block = .move n) := by
  cases h with
  | single hc =>
    obtain rfl := List.mem_singleton.mp hch
    exact ⟨fun h => ⟨_, blockOp_of_isAddition h length []⟩,
      fun h => ⟨_, blockOp_of_isMovement h length []⟩⟩
  | additions _ hall =>
    refine ⟨fun _ => ⟨_, blockOp_of_isAddition (hall _ (List.mem_cons_self ..)) length _⟩,
      fun h => ?_⟩
    cases (isMovement_of_isAddition (hall ch hch)).symm.trans h
  | movements _ hall =>
    refine ⟨fun h => ?_,
      fun _ => ⟨_, blockOp_of_isMovement (hall _ (List.mem_cons_self ..)) length _⟩⟩
    cases (isMovement_of_isAddition h).symm.trans (hall ch hch)

theorem ofChar?_of_isAddition {ch : Char} (h : isAddition ch) : Bracket.ofChar? ch = none := by
  simp only [isAddition, Bool.or_eq_true, beq_iff_eq] at h
  rcases h with rfl | rfl <;> rfl

theorem ofChar?_of_isMovement {ch : Char} (h : isMovement ch) : Bracket.ofChar? ch = none := by
  simp only [isMovement, Bool.or_eq_true, beq_iff_eq] at h
  rcases h with rfl | rfl <;> rfl

theorem opBrackets_blockOp {joinRuns : Bool} {block : List Char} (h : IsBlock joinRuns block)
    (length : Nat) : opBrackets (blockOp length block) = brackets block := by
  cases h with
  | @single ch hc =>
    simp only [isCommand, isAddition, isMovement, Bool.or_eq_true, beq_iff_eq] at hc
    rcases hc with (((((h | h) | h | h) | h) | h) | h) | h <;> subst h <;> rfl
  | additions _ h =>
    rw [blockOp_of_isAddition (h _ (by simp)), brackets,
      List.filterMap_eq_nil_iff.mpr fun a ha => ofChar?_of_isAddition (h a ha)]
    rfl
  | movements _ h =>
    rw [blockOp_of_isMovement (h _ (by simp)), brackets,
      List.filterMap_eq_nil_iff.mpr fun a ha => ofChar?_of_isMovement (h a ha)]
    rfl

/-- Comments have no brackets. -/
theorem brackets_commands (text : List Char) : brackets (commands text) = brackets text := by
  induction text with
  | nil => rfl
  | cons ch rest ih =>
    by_cases hc : isCommand ch
    · rw [commands, List.filter_cons_of_pos hc, ← commands, brackets, brackets,
        List.filterMap_cons, List.filterMap_cons, ← brackets, ← brackets, ih]
    · have hnone : Bracket.ofChar? ch = none := by
        unfold Bracket.ofChar?
        split
        · exact absurd rfl hc
        · exact absurd rfl hc
        · rfl
      rw [commands, List.filter_cons_of_neg hc, ← commands, ih, brackets, brackets,
        List.filterMap_cons_none hnone]

/-- The brackets of a text are those of its normal form. -/
theorem brackets_normalForm (length : Nat) (o : Optimisations) (text : List Char) :
    (normalForm length o text).flatMap opBrackets = brackets text := by
  rw [normalForm, opBrackets_reduce, List.flatMap_map, ← brackets_commands text,
    ← List.flatten_splitBy (joins o.joinRuns) (commands text), ← blocks, List.flatMap_def,
    brackets, List.filterMap_flatten]
  congr 1
  exact List.map_congr_left fun block h =>
    opBrackets_blockOp (isBlock_of_mem_blocks h) length

end Source

end TapeLang
