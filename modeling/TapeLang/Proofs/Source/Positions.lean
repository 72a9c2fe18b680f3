import TapeLang.Proofs.Source.NormalForm

/-!
# Where instructions come from

The position of an instruction is the range of the text that it was read from. All that is outside
of these ranges are comments, and runs of moves and of additions that cancel out.

* `Source.Spells`: a piece of text is what an operation was read from.
* `Source.Cancels`: a piece of text leaves no instruction behind.
* `Source.Fresh`: what the fuser has collected from a part of the text; each character keeps it.
* `Source.Accounts`, `Source.accounts_parse`: the positions of a program account for its whole text.
-/

namespace TapeLang

namespace Source

variable {length : Nat}

/-! ## Pieces of text -/

/-- All commands are of one kind, and it begins and ends with one. -/
structure IsRun (kind : Char → Bool) (piece : List Char) : Prop where
  first : ∃ ch ∈ piece.head?, kind ch
  last : ∃ ch ∈ piece.getLast?, kind ch
  only : ∀ ch ∈ commands piece, kind ch

/-- What an operation is read from, from its first character to its last. -/
def Spells (length : Nat) : Op → List Char → Prop
  | .move n, piece => IsRun isMovement piece ∧ net '>' '<' length piece = n
  | .add n, piece => IsRun isAddition piece ∧ net '+' '-' cellModulus piece = n
  | .reset, piece => ∃ body, piece = '[' :: body ++ [']'] ∧
      (∀ ch ∈ commands body, isMovement ch ∨ isAddition ch) ∧ net '>' '<' length body = 0 ∧
      (net '+' '-' cellModulus body = 1 ∨ net '+' '-' cellModulus body = cellModulus - 1)
  | .loopStart, piece => piece = ['[']
  | .loopEnd, piece => piece = [']']
  | .read, piece => piece = [',']
  | .write, piece => piece = ['.']

/-- Both its moves and its additions add up to nothing. -/
def Zero (length : Nat) (piece : List Char) : Prop :=
  net '>' '<' length piece = 0 ∧ net '+' '-' cellModulus piece = 0

/-- There are only moves and additions, and each run of one kind, as long as it can be, adds up to
nothing. -/
structure Cancels (length : Nat) (gap : List Char) : Prop where
  only : ∀ ch ∈ commands gap, isMovement ch ∨ isAddition ch
  runs : ∀ run ∈ blocks true gap, Zero length run

/-! ## Sums -/

@[simp] theorem commands_append_text (a b : List Char) :
    commands (a ++ b) = commands a ++ commands b := List.filter_append a b

theorem net_commands {forward back : Char} (hf : isCommand forward) (hb : isCommand back)
    (modulus : Nat) (text : List Char) :
    net forward back modulus (commands text) = net forward back modulus text := by
  rw [net, net, commands, List.count_filter hf, List.count_filter hb]

theorem zero_commands (text : List Char) : Zero length (commands text) ↔ Zero length text := by
  rw [Zero, Zero, net_commands rfl rfl, net_commands rfl rfl]

theorem net_of_not_mem {forward back : Char} {text : List Char} (hf : forward ∉ text)
    (hb : back ∉ text) (modulus : Nat) : net forward back modulus text = 0 := by
  rw [net, List.count_eq_zero_of_not_mem hf, List.count_eq_zero_of_not_mem hb]
  simp

theorem zero_nil : Zero length [] :=
  ⟨net_of_not_mem (by simp) (by simp) length, net_of_not_mem (by simp) (by simp) cellModulus⟩

theorem zero_of_comments {text : List Char} (h : commands text = []) : Zero length text := by
  rw [← zero_commands, h]
  exact zero_nil

theorem net_append_left {forward back : Char} {modulus : Nat} (hm : 0 < modulus) {l : List Char}
    (h : net forward back modulus l = 0) (r : List Char) :
    net forward back modulus (l ++ r) = net forward back modulus r := by
  rw [← addMod_net hm, h, addMod_eq hm (net_lt hm ..), Nat.zero_add,
    Nat.mod_eq_of_lt (net_lt hm ..)]

theorem net_append_right {forward back : Char} {modulus : Nat} (hm : 0 < modulus) {r : List Char}
    (h : net forward back modulus r = 0) (l : List Char) :
    net forward back modulus (l ++ r) = net forward back modulus l := by
  rw [← addMod_net hm, h, addMod_eq (net_lt hm ..) hm, Nat.add_zero,
    Nat.mod_eq_of_lt (net_lt hm ..)]

theorem Zero.append (hpos : 0 < length) {a b : List Char} (ha : Zero length a)
    (hb : Zero length b) : Zero length (a ++ b) :=
  ⟨(net_append_left hpos ha.1 b).trans hb.1, (net_append_left (by decide) ha.2 b).trans hb.2⟩

theorem net_moves_of_additions {piece : List Char} (h : ∀ ch ∈ commands piece, isAddition ch)
    (modulus : Nat) : net '>' '<' modulus piece = 0 := by
  rw [← net_commands rfl rfl]
  refine net_of_not_mem ?_ ?_ modulus <;> exact fun hmem => Bool.noConfusion (h _ hmem)

theorem net_additions_of_moves {piece : List Char} (h : ∀ ch ∈ commands piece, isMovement ch)
    (modulus : Nat) : net '+' '-' modulus piece = 0 := by
  rw [← net_commands rfl rfl]
  refine net_of_not_mem ?_ ?_ modulus <;> exact fun hmem => Bool.noConfusion (h _ hmem)

/-! ## Gaps -/

/-- There are commands of one kind only. -/
def OneKind (piece : List Char) : Prop :=
  (∀ ch ∈ commands piece, isMovement ch) ∨ ∀ ch ∈ commands piece, isAddition ch

theorem OneKind.isChain {piece : List Char} (h : OneKind piece) :
    (commands piece).IsChain fun a b => joins true a b := by
  refine List.Pairwise.isChain (List.pairwise_of_forall_mem_list fun a ha b hb => ?_)
  rcases h with h | h
  · simp [joins, h a ha, h b hb]
  · simp [joins, h a ha, h b hb]

/-- The runs of a text behind a piece of one kind: the piece is a run of its own, or the beginning
of the first one. -/
theorem blocks_append {piece : List Char} (h : OneKind piece) (rest : List Char) :
    blocks true (piece ++ rest) = blocks true rest ∨
    blocks true (piece ++ rest) = commands piece :: blocks true rest ∨
    ∃ run runs, blocks true rest = run :: runs ∧
      blocks true (piece ++ rest) = (commands piece ++ run) :: runs := by
  by_cases hnil : commands piece = []
  · left
    rw [blocks, commands_append_text, hnil, List.nil_append, blocks]
  right
  have hsplit := List.splitBy_of_isChain hnil h.isChain
  cases hruns : blocks true rest with
  | nil =>
    left
    rw [blocks, List.splitBy_eq_nil] at hruns
    rw [blocks, commands_append_text, hruns, List.append_nil, hsplit]
  | cons run runs =>
    have hchain := List.isChain_getLast_head_splitBy (joins true) (commands rest)
    rw [← blocks, hruns] at hchain
    have hmem {r : List Char} (hr : r ∈ run :: runs) : r ∈ blocks true rest := hruns ▸ hr
    have hne : run ≠ [] := List.ne_nil_of_mem_splitBy (hmem List.mem_cons_self)
    have hflat : commands rest = run ++ runs.flatten := by
      rw [← List.flatten_cons, ← hruns, blocks, List.flatten_splitBy]
    by_cases hj : joins true ((commands piece).getLast hnil) (run.head hne)
    · right
      refine ⟨run, runs, rfl, List.splitBy_eq_iff.mpr ⟨?_, ?_, ?_, ?_⟩⟩
      · rw [commands_append_text, hflat, List.flatten_cons, List.append_assoc]
      · intro hmem'
        rcases List.mem_cons.mp hmem' with heq | hmem'
        · simp [hnil] at heq
        · exact List.ne_nil_of_mem_splitBy (hmem (List.mem_cons_of_mem _ hmem')) rfl
      · intro r hr
        rcases List.mem_cons.mp hr with rfl | hr
        · refine List.isChain_append.mpr
            ⟨h.isChain, List.isChain_of_mem_splitBy (hmem List.mem_cons_self), ?_⟩
          intro a ha b hb
          rwa [← List.getLast_of_mem_getLast? ha, ← List.head_of_mem_head? hb]
        · exact List.isChain_of_mem_splitBy (hmem (List.mem_cons_of_mem _ hr))
      · obtain ⟨hfirst, hrest⟩ := List.isChain_cons.mp hchain
        refine List.isChain_cons.mpr ⟨fun r hr => ?_, hrest⟩
        obtain ⟨hne', hner, hapart⟩ := hfirst r hr
        exact ⟨by simp [hne'], hner, by rwa [List.getLast_append_of_ne_nil _ hne']⟩
    · left
      rw [blocks, commands_append_text, List.splitBy_append, hsplit, ← blocks, hruns,
        List.singleton_append]
      intro a ha b hb
      rw [hflat, List.head?_append_of_ne_nil _ hne] at hb
      rw [← List.getLast_of_mem_getLast? ha, ← List.head_of_mem_head? hb]
      simpa using hj

/-- Pieces of one kind that add up to nothing, one behind the other. -/
inductive Idle (length : Nat) : List Char → Prop
  | nil : Idle length []
  | cons {piece gap : List Char} : OneKind piece → Zero length piece → Idle length gap →
    Idle length (piece ++ gap)

namespace Idle

variable {a b gap : List Char}

theorem append (ha : Idle length a) (hb : Idle length b) : Idle length (a ++ b) := by
  induction ha with
  | nil => exact hb
  | cons hk hz _ ih =>
    rw [List.append_assoc]
    exact .cons hk hz ih

theorem single (hk : OneKind gap) (hz : Zero length gap) : Idle length gap := by
  have hidle := Idle.cons hk hz .nil
  rwa [List.append_nil] at hidle

theorem of_comments (h : commands gap = []) : Idle length gap :=
  single (.inl (by simp [h])) (zero_of_comments h)

theorem zero (hpos : 0 < length) (h : Idle length gap) : Zero length gap := by
  induction h with
  | nil => exact zero_nil
  | cons _ hz _ ih => exact hz.append hpos ih

/-- Where two pieces of one kind meet they make one longer run. -/
theorem cancels (hpos : 0 < length) (h : Idle length gap) : Cancels length gap := by
  induction h with
  | nil => exact ⟨nofun, nofun⟩
  | @cons piece gap hk hz _ ih =>
    constructor
    · intro ch hch
      rw [commands_append_text, List.mem_append] at hch
      rcases hch with hch | hch
      · exact hk.imp (fun h => h ch hch) (fun h => h ch hch)
      · exact ih.only ch hch
    · have hz := (zero_commands piece).mpr hz
      rcases blocks_append hk gap with hb | hb | ⟨run, runs, hruns, hb⟩
      · rw [hb]
        exact ih.runs
      · rw [hb]
        exact List.forall_mem_cons.mpr ⟨hz, ih.runs⟩
      · have hrest := ih.runs
        rw [hruns] at hrest
        obtain ⟨hrun, hrest⟩ := List.forall_mem_cons.mp hrest
        rw [hb]
        exact List.forall_mem_cons.mpr ⟨hz.append hpos hrun, hrest⟩

end Idle

/-! ## Instructions behind one another -/

/-- `i` is what `piece` has become, behind the text `before`. -/
structure Placed (length : Nat) (i : Instruction) (before piece : List Char) : Prop where
  position : i.position = some ⟨before.length, before.length + piece.length - 1⟩
  spells : Spells length i.op piece

/-- A text by its instructions, newest first: a piece for each, and only idle ones in between. -/
inductive Traced (length : Nat) : List Instruction → List Char → Prop
  | nil {gap : List Char} : Idle length gap → Traced length [] gap
  | cons {i : Instruction} {is : List Instruction} {before piece gap : List Char} :
    Traced length is before → Placed length i before piece → Idle length gap →
    Traced length (i :: is) (before ++ piece ++ gap)

/-- A text by its instructions, with only comments behind the newest. -/
inductive Fresh (length : Nat) : List Instruction → List Char → Prop
  | nil {gap : List Char} : commands gap = [] → Fresh length [] gap
  | cons {i : Instruction} {is : List Instruction} {before piece gap : List Char} :
    Traced length is before → Placed length i before piece → commands gap = [] →
    Fresh length (i :: is) (before ++ piece ++ gap)

theorem Traced.append {is : List Instruction} {text gap : List Char} (h : Traced length is text)
    (hg : Idle length gap) : Traced length is (text ++ gap) := by
  cases h with
  | nil hgap => exact .nil (hgap.append hg)
  | cons h hp hgap =>
    rw [List.append_assoc]
    exact .cons h hp (hgap.append hg)

theorem Spells.idle {op : Op} {piece : List Char} (h : Spells length op piece) (hi : op.isIdle) :
    Idle length piece := by
  cases op with
  | move n =>
    obtain ⟨hrun, hnet⟩ := h
    have hn : n = 0 := by simpa [Op.isIdle, Op.count] using hi
    exact .single (.inl hrun.only) ⟨hnet.trans hn, net_additions_of_moves hrun.only _⟩
  | add n =>
    obtain ⟨hrun, hnet⟩ := h
    have hn : n = 0 := by simpa [Op.isIdle, Op.count] using hi
    exact .single (.inr hrun.only) ⟨net_moves_of_additions hrun.only _, hnet.trans hn⟩
  | reset | loopStart | loopEnd | read | write => cases hi

theorem IsRun.single {kind : Char → Bool} {ch : Char} (h : kind ch) : IsRun kind [ch] where
  first := ⟨ch, rfl, h⟩
  last := ⟨ch, rfl, h⟩
  only a ha := by
    obtain rfl := List.mem_singleton.mp (List.mem_of_mem_filter ha)
    exact h

theorem IsRun.extend {kind : Char → Bool} {piece gap : List Char} {ch : Char}
    (h : IsRun kind piece) (hg : commands gap = []) (hch : kind ch) :
    IsRun kind (piece ++ gap ++ [ch]) where
  first := by
    obtain ⟨a, ha, hkind⟩ := h.first
    have hne : piece ≠ [] := by
      rintro rfl
      cases ha
    refine ⟨a, ?_, hkind⟩
    rwa [List.append_assoc, List.head?_append_of_ne_nil _ hne]
  last := ⟨ch, by simp, hch⟩
  only a ha := by
    rw [commands_append_text, commands_append_text, hg, List.append_nil, List.mem_append] at ha
    rcases ha with ha | ha
    · exact h.only a ha
    · obtain rfl := List.mem_singleton.mp (List.mem_of_mem_filter ha)
      exact hch

/-- Another step of the same kind. -/
theorem net_extend {forward back : Char} (hf : isCommand forward) (hb : isCommand back)
    {modulus : Nat} (hm : 0 < modulus) {gap : List Char} (hg : commands gap = [])
    (piece : List Char) (ch : Char) : net forward back modulus (piece ++ gap ++ [ch]) =
      addMod (net forward back modulus piece) (net forward back modulus [ch]) modulus := by
  rw [addMod_net hm, ← net_commands hf hb, ← net_commands hf hb modulus (piece ++ [ch])]
  simp [hg]

/-! ## The fuser -/

namespace Fresh

variable {f : Fuser} {is : List Instruction} {text : List Char} {ch : Char}

theorem comment (h : Fresh length is text) (hch : isCommand ch = false) :
    Fresh length is (text ++ [ch]) := by
  have hgap {gap : List Char} (hg : commands gap = []) : commands (gap ++ [ch]) = [] := by
    rw [commands_append_text, hg, commands, List.filter_cons_of_neg (by simp [hch])]
    rfl
  cases h with
  | nil hg => exact .nil (hgap hg)
  | cons h hp hg =>
    rw [List.append_assoc]
    exact .cons h hp (hgap hg)

/-- A newest instruction that does nothing joins the gap in front of it. -/
theorem settled (h : Fresh length f.instructions text) : Traced length f.settled text := by
  unfold Fuser.settled
  generalize f.instructions = is at h
  cases h with
  | nil hg => exact .nil (.of_comments hg)
  | @cons i is before piece gap h hp hg =>
    dsimp only
    split
    case isTrue hi =>
      rw [List.append_assoc]
      exact h.append ((hp.spells.idle hi).append (.of_comments hg))
    case isFalse => exact .cons h hp (.of_comments hg)

theorem append (h : Fresh length f.instructions text) {op : Op} (hop : Spells length op [ch]) :
    Fresh length (f.append op (some (.single text.length))).instructions (text ++ [ch]) := by
  have hfresh : Fresh length (⟨op, some (.single text.length)⟩ :: f.settled)
      (text ++ [ch] ++ []) := .cons h.settled ⟨rfl, hop⟩ rfl
  rwa [List.append_nil] at hfresh

/-- The newest instructions become one, for a part of the text that ends here. -/
theorem joinLast {last : Instruction} {rest : List Instruction} {before part : List Char}
    (h : Traced length rest before) {stop : Nat} (hs : last.position = some ⟨before.length, stop⟩)
    (hstop : stop ≤ (before ++ part).length) {op : Op} (hop : Spells length op (part ++ [ch])) :
    Fresh length (f.joinLast op last rest (some (.single (before ++ part).length))).instructions
      (before ++ part ++ [ch]) := by
  have hposition : Position.span last.position (some (.single (before ++ part).length)) =
      some ⟨before.length, before.length + (part ++ [ch]).length - 1⟩ := by
    rw [hs, Position.span, Position.single, Nat.max_eq_right hstop, Nat.min_eq_left (by simp)]
    simp
  have hfresh : Fresh length (⟨op, Position.span last.position _⟩ :: rest)
      (before ++ (part ++ [ch]) ++ []) := .cons h ⟨hposition, hop⟩ rfl
  rwa [List.append_nil, ← List.append_assoc] at hfresh

/-- Another step of the same kind. -/
theorem join {last : Instruction} {rest : List Instruction} {op : Op}
    (h : Fresh length (last :: rest) text)
    (hop : ∀ piece gap, Spells length last.op piece → commands gap = [] →
      Spells length op (piece ++ gap ++ [ch])) :
    Fresh length (f.joinLast op last rest (some (.single text.length))).instructions
      (text ++ [ch]) := by
  cases h with
  | @cons _ _ before piece gap h hp hg =>
    rw [List.append_assoc before]
    refine joinLast h hp.position ?_ (hop piece gap hp.spells hg)
    simp only [List.length_append]
    omega

theorem pushMove (h : Fresh length f.instructions text) (hl : f.tapeLength = length)
    (hpos : 0 < length) (hch : isMovement ch) {n : Nat}
    (hn : n % length = net '>' '<' length [ch]) :
    Fresh length (f.pushMove n (some (.single text.length))).instructions (text ++ [ch]) := by
  by_cases hjoin : f.optimisations.joinRuns = true ∧
      ∃ m q rest, f.instructions = ⟨.move m, q⟩ :: rest
  · obtain ⟨ho, m, q, rest, hf⟩ := hjoin
    rw [Fuser.pushMove_join ho hf, hl, hn]
    rw [hf] at h
    refine h.join fun piece gap hp hg => ?_
    exact ⟨hp.1.extend hg hch, by rw [net_extend rfl rfl hpos hg, hp.2]⟩
  · rw [Fuser.pushMove_append fun ho m q rest hf => hjoin ⟨ho, m, q, rest, hf⟩, hl, hn]
    exact h.append ⟨.single hch, rfl⟩

theorem pushAdd (h : Fresh length f.instructions text) (hch : isAddition ch) {n : Nat}
    (hn : n % cellModulus = net '+' '-' cellModulus [ch]) :
    Fresh length (f.pushAdd n (some (.single text.length))).instructions (text ++ [ch]) := by
  by_cases hjoin : f.optimisations.joinRuns = true ∧
      ∃ m q rest, f.instructions = ⟨.add m, q⟩ :: rest
  · obtain ⟨ho, m, q, rest, hf⟩ := hjoin
    rw [Fuser.pushAdd_join ho hf, hn]
    rw [hf] at h
    refine h.join fun piece gap hp hg => ?_
    exact ⟨hp.1.extend hg hch, by rw [net_extend rfl rfl (by decide) hg, hp.2]⟩
  · rw [Fuser.pushAdd_append fun ho m q rest hf => hjoin ⟨ho, m, q, rest, hf⟩, hn]
    exact h.append ⟨.single hch, rfl⟩

/-- Between the brackets of a loop that clears its cell there are idle pieces and a single step. -/
theorem spells_reset (hpos : 0 < length) {gap piece comments : List Char} (hg : Idle length gap)
    {n : Nat} (hp : Spells length (.add n) piece) (hn : (Op.add n).isUnitAdd)
    (hc : commands comments = []) :
    Spells length .reset ('[' :: (gap ++ piece ++ comments) ++ [']']) := by
  obtain ⟨hrun, hnet⟩ := hp
  have hzero := hg.zero hpos
  have hcomments : Zero length comments := zero_of_comments hc
  have hmod : 0 < cellModulus := by decide
  refine ⟨_, rfl, fun ch hch => ?_, ?_, ?_⟩
  · simp only [commands_append_text, hc, List.append_nil, List.mem_append] at hch
    rcases hch with hch | hch
    · exact (hg.cancels hpos).only ch hch
    · exact .inr (hrun.only ch hch)
  · rw [net_append_right hpos hcomments.1, net_append_left hpos hzero.1,
      net_moves_of_additions hrun.only]
  · rw [net_append_right hmod hcomments.2, net_append_left hmod hzero.2, hnet]
    simpa [Op.isUnitAdd] using hn

theorem pushLoopEnd (h : Fresh length f.instructions text) (hpos : 0 < length) :
    Fresh length (f.pushLoopEnd (some (.single text.length))).instructions (text ++ [']']) := by
  by_cases hclear : f.optimisations.clearLoops = true ∧
      ∃ body q rest, f.instructions = body :: ⟨.loopStart, q⟩ :: rest ∧ body.op.isUnitAdd
  · obtain ⟨ho, ⟨op, r⟩, q, rest, hf, hu⟩ := hclear
    obtain ⟨n, rfl⟩ : ∃ n, op = .add n := by
      simp only [Op.isUnitAdd, Bool.or_eq_true, beq_iff_eq] at hu
      exact hu.elim (fun h => ⟨_, h⟩) (fun h => ⟨_, h⟩)
    rw [Fuser.pushLoopEnd_clear ho hf hu]
    rw [hf] at h
    cases h with
    | @cons _ _ outside piece comments h hp hc =>
      cases h with
      | @cons _ _ before opening gap h hstart hg =>
        obtain rfl : opening = ['['] := hstart.spells
        have htext : before ++ ['['] ++ gap ++ piece ++ comments =
            before ++ ('[' :: (gap ++ piece ++ comments)) := by simp
        rw [htext]
        refine joinLast h hstart.position ?_ (spells_reset hpos hg hp.spells hu hc)
        simp
  · rw [Fuser.pushLoopEnd_append fun ho body q rest hf => Bool.eq_false_iff.mpr fun hu =>
      hclear ⟨ho, body, q, rest, hf, hu⟩]
    exact h.append rfl

end Fresh

/-! ## Scanning -/

namespace Fresh

variable {maxDepth : Nat} {s s' : Scan} {text : List Char}

theorem step (h : Fresh length s.fuser.instructions text) (hl : s.fuser.tapeLength = length)
    (hpos : 0 < length) {ch : Char} (hs : s.step maxDepth text.length ch = .ok s') :
    Fresh length s'.fuser.instructions (text ++ [ch]) := by
  unfold Scan.step at hs
  split at hs
  case h_1 =>
    cases hs
    exact h.pushMove hl hpos rfl (net_forward (by decide) hpos).symm
  case h_2 =>
    cases hs
    rw [hl]
    exact h.pushMove hl hpos rfl (net_back (by decide) hpos).symm
  case h_3 =>
    cases hs
    exact h.pushAdd rfl (net_forward (by decide) (by decide)).symm
  case h_4 =>
    cases hs
    exact h.pushAdd rfl (net_back (by decide) (by decide)).symm
  case h_5 =>
    cases hs
    exact h.append rfl
  case h_6 =>
    cases hs
    exact h.append rfl
  case h_7 =>
    split at hs
    · cases hs
    · cases hs
      exact h.append rfl
  case h_8 =>
    split at hs
    · cases hs
    · cases hs
      exact h.pushLoopEnd hpos
  case h_9 =>
    cases hs
    refine h.comment (Bool.eq_false_iff.mpr fun hc => ?_)
    simp only [isCommand, isAddition, isMovement, Bool.or_eq_true, beq_iff_eq] at hc
    rcases hc with (((((h | h) | h | h) | h) | h) | h) | h <;> contradiction

theorem steps (h : Fresh length s.fuser.instructions text) (hl : s.fuser.tapeLength = length)
    (hpos : 0 < length) {rest : List Char} (hs : s.steps maxDepth text.length rest = .ok s') :
    Fresh length s'.fuser.instructions (text ++ rest) := by
  induction rest generalizing s text with
  | nil =>
    cases hs
    rwa [List.append_nil]
  | cons ch rest ih =>
    rw [Scan.steps] at hs
    split at hs
    case h_1 s₁ hs₁ =>
      have hl₁ := (Scan.step_spec hs₁ (hl ▸ hpos)).1.trans hl
      have hrest := ih (h.step hl hpos hs₁) hl₁ (by simpa using hs)
      rwa [List.append_assoc] at hrest
    case h_2 => cases hs

end Fresh

/-! ## The whole text -/

/-- Where a part of a program ends in the text. -/
def endOf (instructions : List Instruction) : Nat :=
  (instructions.getLast?.bind (·.position)).elim 0 (·.stop + 1)

/-- Where a part of a program begins in the text. -/
def startOf (text : List Char) (instructions : List Instruction) : Nat :=
  (instructions.head?.bind (·.position)).elim text.length (·.start)

/-- Every instruction is where it was read from, in the order of the text, and what is before,
between and behind them cancels out. -/
structure Accounts (length : Nat) (text : List Char) (instructions : List Instruction) : Prop where
  located : ∀ i ∈ instructions, ∃ q, i.position = some q ∧ q.start ≤ q.stop ∧
    q.stop < text.length ∧ Spells length i.op (text.extract q.start (q.stop + 1))
  ordered : instructions.Pairwise fun i j =>
    ∀ q r, i.position = some q → j.position = some r → q.stop < r.start
  gaps : ∀ before after, instructions = before ++ after →
    Cancels length (text.extract (endOf before) (startOf text after))

theorem Spells.ne_nil {op : Op} {piece : List Char} (h : Spells length op piece) : piece ≠ [] := by
  have hrun {kind : Char → Bool} (h : IsRun kind piece) : piece ≠ [] := by
    rintro rfl
    obtain ⟨ch, hch, -⟩ := h.first
    cases hch
  cases op with
  | move n => exact hrun h.1
  | add n => exact hrun h.1
  | reset =>
    obtain ⟨body, rfl, -⟩ := h
    exact List.cons_ne_nil _ _
  | loopStart | loopEnd | read | write => exact h ▸ List.cons_ne_nil _ _

theorem extract_append_of_le {text : List Char} {stop : Nat} (h : stop ≤ text.length) (start : Nat)
    (more : List Char) : (text ++ more).extract start stop = text.extract start stop := by
  rw [List.extract_eq_drop_take', List.extract_eq_drop_take', List.take_append_of_le_length h]

namespace Accounts

variable {text : List Char} {is : List Instruction}

theorem nil (h : Cancels length text) : Accounts length text [] where
  located := nofun
  ordered := .nil
  gaps before after h' := by
    obtain ⟨rfl, rfl⟩ := List.append_eq_nil_iff.mp h'.symm
    simpa [endOf, startOf] using h

theorem startOf_le (h : Accounts length text is) {before after : List Instruction}
    (hs : is = before ++ after) : startOf text after ≤ text.length := by
  cases after with
  | nil => exact Nat.le_refl _
  | cons i after =>
    obtain ⟨q, hq, hle, hlt, -⟩ := h.located i (by simp [hs])
    simp only [startOf, List.head?_cons, Option.bind_some, hq, Option.elim_some]
    omega

/-- What an instruction begins with in front of another one is no longer the end of the text. -/
theorem startOf_concat (h : Accounts length text is) {before after : List Instruction}
    (hs : is = before ++ after) {i : Instruction} {stop : Nat}
    (hi : i.position = some ⟨text.length, stop⟩) (longer : List Char) :
    startOf longer (after ++ [i]) = startOf text after := by
  cases after with
  | nil => simp [startOf, hi]
  | cons j after =>
    obtain ⟨q, hq, -⟩ := h.located j (by simp [hs])
    simp [startOf, hq]

/-- One more instruction, and the gap behind it. -/
theorem concat (h : Accounts length text is) {i : Instruction} {piece gap : List Char}
    (hi : Placed length i text piece) (hg : Cancels length gap) :
    Accounts length (text ++ piece ++ gap) (is ++ [i]) := by
  have hpiece := List.length_pos_iff.mpr hi.spells.ne_nil
  have hstop : text.length + piece.length - 1 + 1 = (text ++ piece).length := by
    rw [List.length_append]
    omega
  refine ⟨fun j hj => ?_, ?_, fun before after hs => ?_⟩
  · rcases List.mem_append.mp hj with hj | hj
    · obtain ⟨q, hq, hle, hlt, hspells⟩ := h.located j hj
      refine ⟨q, hq, hle, ?_, ?_⟩
      · simp only [List.length_append]
        omega
      · rwa [List.append_assoc, extract_append_of_le hlt]
    · obtain rfl := List.mem_singleton.mp hj
      refine ⟨_, hi.position, ?_, ?_, ?_⟩
      · dsimp only
        omega
      · simp only [List.length_append]
        omega
      · have hextract : (text ++ piece ++ gap).extract text.length (text ++ piece).length =
            piece := by
          rw [extract_append_of_le (Nat.le_refl _), List.extract_eq_drop_take', List.take_length,
            List.drop_left]
        rw [hstop, hextract]
        exact hi.spells
  · refine List.pairwise_append.mpr ⟨h.ordered, List.pairwise_singleton _ _, fun j hj k hk => ?_⟩
    obtain rfl := List.mem_singleton.mp hk
    intro q r hq hr
    obtain ⟨q', hq', -, hlt, -⟩ := h.located j hj
    obtain rfl := Option.some.inj (hq.symm.trans hq')
    obtain rfl := Option.some.inj (hr.symm.trans hi.position)
    exact hlt
  · obtain rfl | ⟨after, k, rfl⟩ := List.eq_nil_or_concat after
    · -- behind the new instruction
      rw [List.append_nil] at hs
      have hend : endOf before = (text ++ piece).length := by
        simp [← hs, endOf, hi.position, hstop]
      have hextract : (text ++ piece ++ gap).extract (text ++ piece).length
          (text ++ piece ++ gap).length = gap := by
        rw [List.extract_eq_drop_take', List.take_length, List.drop_left]
      have hstart : startOf (text ++ piece ++ gap) [] = (text ++ piece ++ gap).length := rfl
      rw [hend, hstart, hextract]
      exact hg
    · rw [List.concat_eq_append, ← List.append_assoc] at hs
      obtain ⟨hinit, hk⟩ := List.append_inj' hs rfl
      obtain rfl := (List.cons.inj hk).1
      rw [List.concat_eq_append, h.startOf_concat hinit hi.position, List.append_assoc,
        extract_append_of_le (h.startOf_le hinit)]
      exact h.gaps before after hinit

end Accounts

theorem Traced.accounts {is : List Instruction} {text : List Char} (hpos : 0 < length)
    (h : Traced length is text) : Accounts length text is.reverse := by
  induction h with
  | nil hg => exact .nil (hg.cancels hpos)
  | cons _ hp hg ih =>
    rw [List.reverse_cons]
    exact ih.concat hp (hg.cancels hpos)

/-- The instructions of a program account for the text it was read from. -/
theorem accounts_parse {source : String} {c : Config} {p : Program} (h : parse source c = .ok p) :
    Accounts c.tapeLength source.toList p.instructions.toList := by
  obtain ⟨s, hs, -, rfl⟩ := parse_eq_ok_iff.mp h
  have hstart : Fresh c.tapeLength (Scan.start c).fuser.instructions [] := .nil rfl
  have hfresh := hstart.steps rfl c.tapeLength_pos hs
  have haccounts := hfresh.settled.accounts c.tapeLength_pos
  have hfinish : (s.program c).instructions.toList = s.fuser.settled.reverse := by
    simp [Scan.program, Fuser.finish]
  rwa [hfinish]

/-- Comments inside of a range, and runs that cancel out between two ranges and within one. -/
theorem accounts_parse_cancelled : ∃ p : Program, parse "+ +><[<>-].<>" .standard = .ok p ∧
    Accounts 30000 "+ +><[<>-].<>".toList p.instructions.toList ∧
    p.instructions.toList =
      [⟨.add 2, some ⟨0, 2⟩⟩, ⟨.reset, some ⟨5, 9⟩⟩, ⟨.write, some ⟨10, 10⟩⟩] := by
  obtain ⟨p, hp, hinstructions⟩ : ∃ p : Program, parse "+ +><[<>-].<>" .standard = .ok p ∧
    p.instructions.toList =
      [⟨.add 2, some ⟨0, 2⟩⟩, ⟨.reset, some ⟨5, 9⟩⟩, ⟨.write, some ⟨10, 10⟩⟩] :=
    ⟨_, rfl, by decide +kernel⟩
  exact ⟨p, hp, accounts_parse hp, hinstructions⟩

end Source

end TapeLang
