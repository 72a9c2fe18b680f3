import TapeLang.Proofs.Source.Blocks
import TapeLang.Proofs.Tree.Parser

/-!
# Reading gives the normal form

The fuser looks at the newest one or two operations only. A whole block leaves the same behind as
its one operation, and block by block loops are cleared just where the normal form clears them.

* `push`, `place`, `Scan.ops_steps`: the fuser, seen through its operations alone.
* `foldl_push_block`: a block joins into its operation.
* `settle_foldl_place`: operations that do not join are reduced.
* `ops_parse`: the operations of a program are the normal form of its text.
-/

namespace TapeLang

namespace Source

/-! ## The newest operations -/

/-- The newest operation and the next one, if they join. -/
def join? (length : Nat) : Op → Op → Option Op
  | .move m, .move n => some (.move (addMod m n length))
  | .add m, .add n => some (.add (addMod m n cellModulus))
  | _, _ => none

/-- Without a newest operation that does nothing. -/
def settle : List Op → List Op
  | last :: rest => if last.isIdle then rest else last :: rest
  | [] => []

/-- Put an operation behind `ops`, newest first, without a join. -/
def place (clearLoops : Bool) (ops : List Op) (op : Op) : List Op :=
  match clearLoops, op, ops with
  | true, .loopEnd, body :: .loopStart :: rest =>
    if body.isUnitAdd then .reset :: rest else .loopEnd :: settle ops
  | _, _, _ => op :: settle ops

/-- Put an operation behind `ops`, newest first, joined with the newest if it may be. -/
def push (length : Nat) (o : Optimisations) (ops : List Op) (op : Op) : List Op :=
  match o.joinRuns, ops.head?.bind (join? length · op) with
  | true, some joined => joined :: ops.tail
  | _, _ => place o.clearLoops ops op

theorem place_of_ne (op : Op) (h : op ≠ .loopEnd) (clearLoops : Bool) (ops : List Op) :
    place clearLoops ops op = op :: settle ops := by
  unfold place
  split
  case h_1 => exact absurd rfl h
  case h_2 => rfl

theorem place_move (n : Nat) (clearLoops : Bool) (ops : List Op) :
    place clearLoops ops (.move n) = .move n :: settle ops := place_of_ne (.move n) nofun _ _

theorem place_add (n : Nat) (clearLoops : Bool) (ops : List Op) :
    place clearLoops ops (.add n) = .add n :: settle ops := place_of_ne (.add n) nofun _ _

theorem place_of_not_closing {clearLoops : Bool} {ops : List Op}
    (h : clearLoops = true → ∀ body rest, ops = body :: .loopStart :: rest →
      body.isUnitAdd = false) (op : Op) : place clearLoops ops op = op :: settle ops := by
  unfold place
  split
  case h_1 body rest => rw [if_neg (by simp [h rfl body rest rfl])]
  case h_2 => rfl

theorem push_join {length : Nat} {o : Optimisations} {last op joined : Op} (ho : o.joinRuns = true)
    (h : join? length last op = some joined) (rest : List Op) :
    push length o (last :: rest) op = joined :: rest := by
  simp [push, ho, h]

theorem push_place {length : Nat} {o : Optimisations} {ops : List Op} {op : Op}
    (h : o.joinRuns = true → ∀ last ∈ ops.head?, join? length last op = none) :
    push length o ops op = place o.clearLoops ops op := by
  unfold push
  split
  case h_1 joined ho hj =>
    obtain ⟨last, hl, hj⟩ := Option.bind_eq_some_iff.mp hj
    cases (h ho last hl).symm.trans hj
  case h_2 => rfl

theorem join?_move {length : Nat} {last : Op} {n : Nat} (h : ∀ m, last ≠ .move m) :
    join? length last (.move n) = none := by
  cases last <;> first | rfl | exact absurd rfl (h _)

theorem join?_add {length : Nat} {last : Op} {n : Nat} (h : ∀ m, last ≠ .add m) :
    join? length last (.add n) = none := by
  cases last <;> first | rfl | exact absurd rfl (h _)

theorem join?_eq_none {length : Nat} {op : Op} (hm : op.isMove = false) (ha : op.isAdd = false)
    (last : Op) : join? length last op = none := by
  cases op with
  | move n => cases hm
  | add n => cases ha
  | reset | loopStart | loopEnd | read | write => cases last <;> rfl

/-- Neither a move nor an addition. -/
theorem push_other {length : Nat} {o : Optimisations} (op : Op) (hm : op.isMove = false)
    (ha : op.isAdd = false) (ops : List Op) :
    push length o ops op = place o.clearLoops ops op :=
  push_place fun _ _ _ => join?_eq_none hm ha _

end Source

namespace Fuser

open Source

variable {f : Fuser} {m : Nat} {q : Option Position} {body : Instruction}
  {rest : List Instruction}

/-- Newest first. -/
def ops (f : Fuser) : List Op := f.instructions.map (·.op)

theorem exists_of_mem_head? {last : Op} (h : last ∈ f.ops.head?) :
    ∃ p rest, f.instructions = ⟨last, p⟩ :: rest := by
  unfold ops at h
  cases hf : f.instructions with
  | nil => simp [hf] at h
  | cons i rest =>
    simp only [hf, List.map_cons, List.head?_cons, Option.mem_def, Option.some.injEq] at h
    exact ⟨i.position, rest, by rw [← h]⟩

theorem map_settled (f : Fuser) : f.settled.map (·.op) = settle f.ops := by
  unfold settled ops
  cases h : f.instructions with
  | nil => rfl
  | cons last rest =>
    simp only [List.map_cons, settle]
    split <;> rfl

theorem ops_append (f : Fuser) (op : Op) (p : Option Position) :
    (f.append op p).ops = op :: settle f.ops := by
  rw [← map_settled]
  rfl

theorem ops_pushMove (f : Fuser) (n : Nat) (p : Option Position) :
    (f.pushMove n p).ops =
      push f.tapeLength f.optimisations f.ops (.move (n % f.tapeLength)) := by
  unfold pushMove
  dsimp only
  split
  case h_1 m q rest ho hf =>
    rw [ops, ops, hf, List.map_cons, push_join ho rfl]
    rfl
  case h_2 hno =>
    rw [ops_append, push_place, place_move]
    intro ho last hl
    obtain ⟨q, rest, hf⟩ := exists_of_mem_head? hl
    exact join?_move fun m hm => hno m q rest ho (hm ▸ hf)

theorem ops_pushAdd (f : Fuser) (n : Nat) (p : Option Position) :
    (f.pushAdd n p).ops =
      push f.tapeLength f.optimisations f.ops (.add (n % cellModulus)) := by
  unfold pushAdd
  dsimp only
  split
  case h_1 m q rest ho hf =>
    rw [ops, ops, hf, List.map_cons, push_join ho rfl]
    rfl
  case h_2 hno =>
    rw [ops_append, push_place, place_add]
    intro ho last hl
    obtain ⟨q, rest, hf⟩ := exists_of_mem_head? hl
    exact join?_add fun m hm => hno m q rest ho (hm ▸ hf)

theorem ops_pushLoopEnd (f : Fuser) (p : Option Position) :
    (f.pushLoopEnd p).ops = place f.optimisations.clearLoops f.ops .loopEnd := by
  unfold pushLoopEnd
  split
  case h_1 body start rest hc hf =>
    obtain ⟨sop, q⟩ := start
    have hops : f.ops = body.op :: sop :: rest.map (·.op) := by rw [ops, hf]; rfl
    by_cases hs : sop = .loopStart
    · subst hs
      rw [hc, hops, place, ← hops, ← map_settled]
      by_cases hu : body.op.isUnitAdd
      · simp [hu, joinLast, ops]
      · simp [hu, append, ops]
    · rw [if_neg (by simp [hs]), ops_append, place_of_not_closing]
      intro _ b r hb
      rw [hops, List.cons.injEq, List.cons.injEq] at hb
      exact absurd hb.2.1 hs
  case h_2 hno =>
    rw [ops_append, place_of_not_closing]
    intro hc b r hb
    obtain ⟨q, more, hf⟩ := exists_of_mem_head? (show b ∈ f.ops.head? by rw [hb]; rfl)
    cases more with
    | nil => simp [ops, hf] at hb
    | cons start rest => exact absurd hf (hno ⟨b, q⟩ start rest hc)

theorem pushMove_join (ho : f.optimisations.joinRuns = true)
    (hf : f.instructions = ⟨.move m, q⟩ :: rest) (n : Nat) (p : Option Position) :
    f.pushMove n p =
      f.joinLast (.move (addMod m (n % f.tapeLength) f.tapeLength)) ⟨.move m, q⟩ rest p := by
  simp only [pushMove, ho, hf]

theorem pushMove_append (h : f.optimisations.joinRuns = true →
    ∀ m q rest, f.instructions ≠ ⟨.move m, q⟩ :: rest) (n : Nat) (p : Option Position) :
    f.pushMove n p = f.append (.move (n % f.tapeLength)) p := by
  unfold pushMove
  dsimp only
  split
  case h_1 m q rest ho hf => exact absurd hf (h ho m q rest)
  case h_2 => rfl

theorem pushAdd_join (ho : f.optimisations.joinRuns = true)
    (hf : f.instructions = ⟨.add m, q⟩ :: rest) (n : Nat) (p : Option Position) :
    f.pushAdd n p =
      f.joinLast (.add (addMod m (n % cellModulus) cellModulus)) ⟨.add m, q⟩ rest p := by
  simp only [pushAdd, ho, hf]

theorem pushAdd_append (h : f.optimisations.joinRuns = true →
    ∀ m q rest, f.instructions ≠ ⟨.add m, q⟩ :: rest) (n : Nat) (p : Option Position) :
    f.pushAdd n p = f.append (.add (n % cellModulus)) p := by
  unfold pushAdd
  dsimp only
  split
  case h_1 m q rest ho hf => exact absurd hf (h ho m q rest)
  case h_2 => rfl

theorem pushLoopEnd_clear (ho : f.optimisations.clearLoops = true)
    (hf : f.instructions = body :: ⟨.loopStart, q⟩ :: rest) (hb : body.op.isUnitAdd)
    (p : Option Position) :
    f.pushLoopEnd p = f.joinLast .reset ⟨.loopStart, q⟩ rest p := by
  simp [pushLoopEnd, ho, hf, hb]

theorem pushLoopEnd_append (h : f.optimisations.clearLoops = true →
    ∀ body q rest, f.instructions = body :: ⟨.loopStart, q⟩ :: rest → body.op.isUnitAdd = false)
    (p : Option Position) : f.pushLoopEnd p = f.append .loopEnd p := by
  unfold pushLoopEnd
  split
  case h_1 body start rest ho hf =>
    rw [if_neg]
    intro hclear
    simp only [Bool.and_eq_true, beq_iff_eq] at hclear
    obtain ⟨op, q⟩ := start
    obtain ⟨hu, rfl⟩ := hclear
    cases (h ho body q rest hf).symm.trans hu
  case h_2 => rfl

@[simp] theorem optimisations_append (f : Fuser) (op : Op) (p : Option Position) :
    (f.append op p).optimisations = f.optimisations := rfl

@[simp] theorem optimisations_pushMove (f : Fuser) (n : Nat) (p : Option Position) :
    (f.pushMove n p).optimisations = f.optimisations := by
  unfold pushMove
  dsimp only
  split <;> rfl

@[simp] theorem optimisations_pushAdd (f : Fuser) (n : Nat) (p : Option Position) :
    (f.pushAdd n p).optimisations = f.optimisations := by
  unfold pushAdd
  dsimp only
  split <;> rfl

@[simp] theorem optimisations_pushLoopEnd (f : Fuser) (p : Option Position) :
    (f.pushLoopEnd p).optimisations = f.optimisations := by
  unfold pushLoopEnd
  repeat' split
  all_goals rfl

end Fuser

namespace Source

/-! ## Counting round the circle -/

theorem natCast_net {modulus : Nat} (hm : 0 < modulus) (forward back : Char) (block : List Char) :
    (net forward back modulus block : Int) =
      ((block.count forward : Int) - block.count back) % modulus :=
  Int.toNat_of_nonneg (Int.emod_nonneg _ (by omega))

theorem net_lt {modulus : Nat} (hm : 0 < modulus) (forward back : Char) (block : List Char) :
    net forward back modulus block < modulus := by
  have hlt := Int.emod_lt_of_pos ((block.count forward : Int) - block.count back)
    (show (0 : Int) < modulus by omega)
  rw [← natCast_net hm] at hlt
  omega

theorem net_forward {forward back : Char} (hne : forward ≠ back) {modulus : Nat}
    (hm : 0 < modulus) : net forward back modulus [forward] = 1 % modulus := by
  apply Int.natCast_inj.mp
  rw [natCast_net hm]
  simp [hne]

theorem net_back {forward back : Char} (hne : forward ≠ back) {modulus : Nat} (hm : 0 < modulus) :
    net forward back modulus [back] = (modulus - 1) % modulus := by
  apply Int.natCast_inj.mp
  have hback : ((modulus - 1 : Nat) : Int) = -1 + modulus := by omega
  rw [natCast_net hm, Int.natCast_emod, hback, Int.add_emod_right]
  simp [hne.symm]

/-- Sums of steps add up. -/
theorem addMod_net {modulus : Nat} (hm : 0 < modulus) (forward back : Char) (l r : List Char) :
    addMod (net forward back modulus l) (net forward back modulus r) modulus =
      net forward back modulus (l ++ r) := by
  rw [addMod_eq (net_lt hm ..) (net_lt hm ..)]
  apply Int.natCast_inj.mp
  rw [natCast_net hm, Int.natCast_emod, Int.natCast_add, natCast_net hm, natCast_net hm,
    ← Int.add_emod, List.count_append, List.count_append]
  congr 1
  omega

/-! ## Scanning -/

/-- What a single command spells. -/
def commandOp (length : Nat) (ch : Char) : Op := blockOp length [ch]

end Source

namespace Scan

open Source

variable {maxDepth : Nat} {s s' : Scan} {index : Nat}

/-- A character reaches the fuser only if it is a command. -/
theorem step_spec {ch : Char} (h : s.step maxDepth index ch = .ok s')
    (hpos : 0 < s.fuser.tapeLength) :
    s'.fuser.tapeLength = s.fuser.tapeLength ∧ s'.fuser.optimisations = s.fuser.optimisations ∧
      s'.fuser.ops = if isCommand ch then
        push s.fuser.tapeLength s.fuser.optimisations s.fuser.ops
          (commandOp s.fuser.tapeLength ch)
        else s.fuser.ops := by
  have hmod : 0 < cellModulus := by decide
  unfold step at h
  split at h
  case h_1 =>
    cases h
    refine ⟨by simp, by simp, ?_⟩
    rw [Fuser.ops_pushMove, ← @net_forward '>' '<' (by decide) _ hpos]
    rfl
  case h_2 =>
    cases h
    refine ⟨by simp, by simp, ?_⟩
    rw [Fuser.ops_pushMove, ← @net_back '>' '<' (by decide) _ hpos]
    rfl
  case h_3 =>
    cases h
    refine ⟨by simp, by simp, ?_⟩
    rw [Fuser.ops_pushAdd, ← @net_forward '+' '-' (by decide) _ hmod]
    rfl
  case h_4 =>
    cases h
    refine ⟨by simp, by simp, ?_⟩
    rw [Fuser.ops_pushAdd, ← @net_back '+' '-' (by decide) _ hmod]
    rfl
  case h_5 =>
    cases h
    refine ⟨rfl, rfl, ?_⟩
    rw [Fuser.ops_append]
    exact ((push_other .read rfl rfl _).trans (place_of_ne .read nofun _ _)).symm
  case h_6 =>
    cases h
    refine ⟨rfl, rfl, ?_⟩
    rw [Fuser.ops_append]
    exact ((push_other .write rfl rfl _).trans (place_of_ne .write nofun _ _)).symm
  case h_7 =>
    split at h
    · cases h
    · cases h
      refine ⟨rfl, rfl, ?_⟩
      rw [Fuser.ops_append]
      exact ((push_other .loopStart rfl rfl _).trans (place_of_ne .loopStart nofun _ _)).symm
  case h_8 =>
    split at h
    · cases h
    · cases h
      refine ⟨by simp, by simp, ?_⟩
      rw [Fuser.ops_pushLoopEnd]
      exact (push_other .loopEnd rfl rfl _).symm
  case h_9 =>
    cases h
    refine ⟨rfl, rfl, ?_⟩
    rw [if_neg]
    intro hc
    simp only [isCommand, isAddition, isMovement, Bool.or_eq_true, beq_iff_eq] at hc
    rcases hc with (((((h | h) | h | h) | h) | h) | h) | h <;> contradiction

/-- The fuser takes in the commands of a text one by one. -/
theorem ops_steps {text : List Char} (h : s.steps maxDepth index text = .ok s')
    (hpos : 0 < s.fuser.tapeLength) :
    s'.fuser.ops = ((commands text).map (commandOp s.fuser.tapeLength)).foldl
      (push s.fuser.tapeLength s.fuser.optimisations) s.fuser.ops := by
  induction text generalizing s index with
  | nil =>
    cases h
    rfl
  | cons ch rest ih =>
    unfold steps at h
    split at h
    case h_1 s₁ hs =>
      obtain ⟨hl, ho, hops⟩ := step_spec hs hpos
      have hrest := ih h (hl ▸ hpos)
      rw [hrest, hl, ho, hops, commands, commands, List.filter_cons]
      split <;> rfl
    case h_2 => cases h

end Scan

namespace Source

/-! ## Blocks -/

variable {length : Nat} {o : Optimisations}

/-- Steps of one kind join into the newest operation. -/
theorem foldl_push_run (ho : o.joinRuns = true) {op : Nat → Op} {forward back : Char}
    {modulus : Nat} (hm : 0 < modulus)
    (hj : ∀ m n, join? length (op m) (op n) = some (op (addMod m n modulus))) {run : List Char}
    (hop : ∀ ch ∈ run, commandOp length ch = op (net forward back modulus [ch]))
    (done : List Char) (ops : List Op) :
    (run.map (commandOp length)).foldl (push length o)
        (op (net forward back modulus done) :: ops) =
      op (net forward back modulus (done ++ run)) :: ops := by
  induction run generalizing done with
  | nil => rw [List.append_nil]; rfl
  | cons ch run ih =>
    rw [List.map_cons, List.foldl_cons, hop ch (List.mem_cons_self ..), push_join ho (hj _ _),
      addMod_net hm, ih (fun a ha => hop a (List.mem_cons_of_mem ch ha)), List.append_assoc]
    rfl

theorem join?_add_congr {last : Op} {m : Nat} (h : join? length last (.add m) = none) (n : Nat) :
    join? length last (.add n) = none := by
  cases last <;> first | rfl | cases h

theorem join?_move_congr {last : Op} {m : Nat} (h : join? length last (.move m) = none) (n : Nat) :
    join? length last (.move n) = none := by
  cases last <;> first | rfl | cases h

/-- A whole block leaves behind what its one operation leaves behind. -/
theorem foldl_push_block (hpos : 0 < length) {block : List Char} (h : IsBlock o.joinRuns block)
    {ops : List Op}
    (hfree : o.joinRuns = true → ∀ last ∈ ops.head?,
      join? length last (blockOp length block) = none) :
    (block.map (commandOp length)).foldl (push length o) ops =
      place o.clearLoops ops (blockOp length block) := by
  cases h with
  | single => exact push_place hfree
  | @additions ch rest hj h =>
    have hop : ∀ a ∈ ch :: rest, commandOp length a = .add (net '+' '-' cellModulus [a]) :=
      fun a ha => blockOp_of_isAddition (h a ha) length []
    rw [blockOp_of_isAddition (h ch (List.mem_cons_self ..))] at hfree ⊢
    rw [List.map_cons, List.foldl_cons, hop ch (List.mem_cons_self ..),
      push_place fun ho last hl => join?_add_congr (hfree ho last hl) _, place_add, place_add]
    exact foldl_push_run hj (by decide) (fun _ _ => rfl)
      (fun a ha => hop a (List.mem_cons_of_mem ch ha)) [ch] _
  | @movements ch rest hj h =>
    have hop : ∀ a ∈ ch :: rest, commandOp length a = .move (net '>' '<' length [a]) :=
      fun a ha => blockOp_of_isMovement (h a ha) length []
    rw [blockOp_of_isMovement (h ch (List.mem_cons_self ..))] at hfree ⊢
    rw [List.map_cons, List.foldl_cons, hop ch (List.mem_cons_self ..),
      push_place fun ho last hl => join?_move_congr (hfree ho last hl) _, place_move, place_move]
    exact foldl_push_run hj hpos (fun _ _ => rfl)
      (fun a ha => hop a (List.mem_cons_of_mem ch ha)) [ch] _

/-- Blocks that stand apart do not join. -/
theorem join?_blockOp (ho : o.joinRuns = true) {a b : List Char} (ha : IsBlock o.joinRuns a)
    (hb : IsBlock o.joinRuns b)
    (h : ∃ hna hnb, joins o.joinRuns (a.getLast hna) (b.head hnb) = false) :
    join? length (blockOp length a) (blockOp length b) = none := by
  obtain ⟨hna, hnb, h⟩ := h
  simp only [joins, ho, Bool.true_and, Bool.or_eq_false_iff] at h
  cases hopb : blockOp length b with
  | move n =>
    refine join?_move fun m hopa => ?_
    have hla := forall_isMovement ha hopa _ (List.getLast_mem hna)
    simp [hla, forall_isMovement hb hopb _ (List.head_mem hnb)] at h
  | add n =>
    refine join?_add fun m hopa => ?_
    have hla := forall_isAddition ha hopa _ (List.getLast_mem hna)
    simp [hla, forall_isAddition hb hopb _ (List.head_mem hnb)] at h
  | reset | loopStart | loopEnd | read | write => exact join?_eq_none rfl rfl _

theorem head?_place (clearLoops : Bool) (ops : List Op) (op : Op) :
    ∀ last ∈ (place clearLoops ops op).head?, last = op ∨ last = .reset := by
  unfold place
  repeat' split
  all_goals simp

/-- A text leaves behind what the operations of its blocks leave behind. -/
theorem foldl_push_blocks (hpos : 0 < length) {bs : List (List Char)}
    (hbs : ∀ b ∈ bs, IsBlock o.joinRuns b)
    (hc : bs.IsChain fun a b => ∃ ha hb, joins o.joinRuns (a.getLast ha) (b.head hb) = false)
    {ops : List Op}
    (hfree : o.joinRuns = true → ∀ b ∈ bs.head?, ∀ last ∈ ops.head?,
      join? length last (blockOp length b) = none) :
    (bs.flatten.map (commandOp length)).foldl (push length o) ops =
      (bs.map (blockOp length)).foldl (place o.clearLoops) ops := by
  induction bs generalizing ops with
  | nil => rfl
  | cons b rest ih =>
    have hb := hbs b (List.mem_cons_self ..)
    have hrest : ∀ b ∈ rest, IsBlock o.joinRuns b := fun a ha => hbs a (List.mem_cons_of_mem b ha)
    rw [List.flatten_cons, List.map_append, List.foldl_append,
      foldl_push_block hpos hb fun ho => hfree ho b rfl, ih hrest hc.tail, List.map_cons,
      List.foldl_cons]
    intro ho a ha last hl
    have hapart := (List.isChain_cons.mp hc).1 a ha
    rcases head?_place _ _ _ last hl with rfl | rfl
    · exact join?_blockOp ho hb (hrest a (List.mem_of_mem_head? ha)) hapart
    · cases blockOp length a <;> rfl

/-! ## Reducing -/

/-- No loop that begins at the end of `done`, newest first, is cleared by what comes behind it. -/
structure Apart (done ops : List Op) : Prop where
  body : ∀ rest, settle done = .loopStart :: rest → behindClear? ops = none
  closing : ∀ step rest, done = step :: .loopStart :: rest → step.isUnitAdd →
    ops.head? ≠ some .loopEnd

theorem settle_cons {op : Op} (h : op.isIdle = false) (ops : List Op) :
    settle (op :: ops) = op :: ops := by simp [settle, h]

theorem settle_cons_of_isIdle {op : Op} (h : op.isIdle) (ops : List Op) :
    settle (op :: ops) = ops := by simp [settle, h]

theorem isIdle_of_isUnitAdd {op : Op} (h : op.isUnitAdd) : op.isIdle = false := by
  simp only [Op.isUnitAdd, Bool.or_eq_true, beq_iff_eq] at h
  rcases h with rfl | rfl <;> rfl

theorem place_of_isIdle {op : Op} (h : op.isIdle) (clearLoops : Bool) (done : List Op) :
    place clearLoops done op = op :: settle done :=
  place_of_ne op (by rintro rfl; cases h) clearLoops done

/-- Idle operations come and go. -/
theorem settle_foldl_idle (clearLoops : Bool) {idle : List Op} (h : ∀ op ∈ idle, op.isIdle)
    (done : List Op) : settle (idle.foldl (place clearLoops) done) = settle done := by
  induction idle generalizing done with
  | nil => rfl
  | cons op idle ih =>
    have hop := h op (List.mem_cons_self ..)
    rw [List.foldl_cons, ih fun a ha => h a (List.mem_cons_of_mem op ha),
      place_of_isIdle hop, settle_cons_of_isIdle hop]

/-- A loop that clears its cell leaves a reset behind. -/
theorem foldl_place_clear {idle : List Op} (hidle : ∀ op ∈ idle, op.isIdle) {step : Op}
    (hu : step.isUnitAdd) (done : List Op) :
    (Op.loopStart :: (idle ++ [step, .loopEnd])).foldl (place true) done =
      .reset :: settle done := by
  have hstep : step ≠ .loopEnd := by rintro rfl; cases hu
  rw [List.foldl_cons, List.foldl_append, List.foldl_cons, List.foldl_cons, List.foldl_nil,
    place_of_ne step hstep, settle_foldl_idle true hidle,
    place_of_ne .loopStart nofun, settle_cons rfl, place, if_pos hu]

theorem apart_nil (ops : List Op) : Apart [] ops := ⟨nofun, nofun⟩

theorem apart_reset (done ops : List Op) : Apart (.reset :: done) ops where
  body rest h := by
    rw [settle_cons rfl] at h
    cases h
  closing step rest h hu := by
    obtain ⟨rfl, -⟩ := List.cons.inj h
    cases hu

theorem apart_loopStart {ops : List Op} (h : behindClear? ops = none) (done : List Op) :
    Apart (.loopStart :: done) ops where
  body _ _ := h
  closing step rest h hu := by
    obtain ⟨rfl, -⟩ := List.cons.inj h
    cases hu

namespace Apart

variable {done rest : List Op} {op : Op}

theorem idle (h : Apart done (op :: rest)) (hop : op.isIdle) : Apart (op :: settle done) rest where
  body ops hs := by
    rw [settle_cons_of_isIdle hop] at hs
    have hnone := h.body ops hs
    rwa [behindClear?, List.dropWhile_cons_of_pos hop, ← behindClear?] at hnone
  closing step ops hs hu := by
    obtain ⟨rfl, -⟩ := List.cons.inj hs
    cases hop.symm.trans (isIdle_of_isUnitAdd hu)

theorem cons (h : Apart done (op :: rest)) (hi : op.isIdle = false) (hop : op ≠ .loopStart) :
    Apart (op :: settle done) rest where
  body ops hs := by
    rw [settle_cons hi] at hs
    exact absurd (List.cons.inj hs).1 hop
  closing step ops hs hu hrest := by
    obtain ⟨rfl, hd⟩ := List.cons.inj hs
    obtain ⟨behind, rfl⟩ := List.head?_eq_some_iff.mp hrest
    have hclear : behindClear? (op :: .loopEnd :: behind) = some behind :=
      behindClear?_eq_some.mpr ⟨[], op, rfl, nofun, hu⟩
    cases (h.body ops hd).symm.trans hclear

theorem place_eq {clearLoops : Bool} (h : clearLoops = true → Apart done (op :: rest)) :
    place clearLoops done op = op :: settle done := by
  by_cases hop : op = .loopEnd
  · subst hop
    refine place_of_not_closing (fun hc step ops hs => ?_) _
    cases hu : step.isUnitAdd with
    | false => rfl
    | true => exact absurd rfl ((h hc).closing step ops hs hu)
  · exact place_of_ne op hop clearLoops done

end Apart

/-- Put one behind the other, operations are reduced. -/
theorem settle_foldl_place {clearLoops : Bool} {ops done : List Op}
    (h : clearLoops = true → Apart done ops) :
    (settle (ops.foldl (place clearLoops) done)).reverse =
      (settle done).reverse ++ reduce clearLoops ops := by
  fun_induction reduce clearLoops ops generalizing done with
  | case1 => simp
  | case2 rest behind hb hc ih =>
    subst hc
    obtain ⟨idle, step, rfl, hidle, hu⟩ := behindClear?_eq_some.mp hb
    have hsplit : Op.loopStart :: (idle ++ step :: .loopEnd :: behind) =
        .loopStart :: (idle ++ [step, .loopEnd]) ++ behind := by simp
    rw [hsplit, List.foldl_append, foldl_place_clear hidle hu, ih fun _ => apart_reset _ _,
      settle_cons rfl, List.reverse_cons, List.append_assoc]
    rfl
  | case3 rest behind hb hc ih =>
    rw [List.foldl_cons, Apart.place_eq h, ih fun hc' => absurd hc' hc, settle_cons rfl,
      List.reverse_cons, List.append_assoc]
    rfl
  | case4 rest hb ih =>
    rw [List.foldl_cons, Apart.place_eq h, ih fun _ => apart_loopStart hb _, settle_cons rfl,
      List.reverse_cons, List.append_assoc]
    rfl
  | case5 op rest hop hi ih =>
    rw [List.foldl_cons, Apart.place_eq h, ih fun hc => (h hc).idle hi, settle_cons_of_isIdle hi]
  | case6 op rest hop hi ih =>
    have hi : op.isIdle = false := by simpa using hi
    rw [List.foldl_cons, Apart.place_eq h, ih fun hc => (h hc).cons hi hop, settle_cons hi,
      List.reverse_cons, List.append_assoc]
    rfl

/-! ## Programs -/

theorem isChain_blocks (joinRuns : Bool) (text : List Char) :
    (blocks joinRuns text).IsChain
      fun a b => ∃ ha hb, joins joinRuns (a.getLast ha) (b.head hb) = false :=
  List.isChain_getLast_head_splitBy _ _

/-- The operations of a program are the normal form of its text. -/
theorem ops_of_parse {source : String} {c : Config} {p : Program} (h : parse source c = .ok p) :
    p.ops = normalForm c.tapeLength c.optimisations source.toList := by
  obtain ⟨s, hs, -, rfl⟩ := parse_eq_ok_iff.mp h
  have hops := Scan.ops_steps hs c.tapeLength_pos
  have hfinish : (s.program c).ops = (settle s.fuser.ops).reverse := by
    simp [Program.ops, Scan.program, Fuser.finish, ← Fuser.map_settled]
  rw [hfinish, hops, ← List.flatten_splitBy (joins c.optimisations.joinRuns) (commands _), ← blocks]
  simp only [Scan.start, Fuser.empty]
  rw [foldl_push_blocks c.tapeLength_pos (fun b => isBlock_of_mem_blocks) (isChain_blocks _ _)]
  · exact settle_foldl_place fun _ => apart_nil _
  · simp [Fuser.ops]

/-- What is read from a text is its normal form, and its comments say nothing. -/
theorem ops_parse {source : String} {c : Config} {p : Program} (h : parse source c = .ok p) :
    p.ops = normalForm c.tapeLength c.optimisations source.toList ∧
      ∀ source' : String, commands source'.toList = commands source.toList →
        ∃ q, parse source' c = .ok q ∧ q.ops = p.ops := by
  refine ⟨ops_of_parse h, fun source' hc => ?_⟩
  have hnests := (exists_parse_iff source c).mp ⟨p, h⟩
  rw [← brackets_commands, ← hc, brackets_commands] at hnests
  obtain ⟨q, hq⟩ := (exists_parse_iff source' c).mpr hnests
  refine ⟨q, hq, ?_⟩
  rw [ops_of_parse hq, ops_of_parse h, normalForm, normalForm, blocks, blocks, hc]

/-- Before a single step a cancelled run does not keep a loop from being cleared, behind it does. -/
theorem ops_parse_cancelled : ∃ p : Program, parse "[><-]\n[-><]" .standard = .ok p ∧
    p.ops = normalForm 30000 .all "[><-]\n[-><]".toList ∧
    (∃ q, parse "[ >< - ] [ - >< ]" .standard = .ok q ∧ q.ops = p.ops) ∧
    p.ops = [.reset, .loopStart, .add 255, .loopEnd] := by
  obtain ⟨p, hp, hops⟩ : ∃ p, parse "[><-]\n[-><]" .standard = .ok p ∧
    p.ops = [.reset, .loopStart, .add 255, .loopEnd] := ⟨_, rfl, by decide +kernel⟩
  obtain ⟨hn, hc⟩ := ops_parse hp
  exact ⟨p, hp, hn, hc _ (by decide), hops⟩

end Source

end TapeLang
