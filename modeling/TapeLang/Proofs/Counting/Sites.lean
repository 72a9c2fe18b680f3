import TapeLang.Proofs.Source.NormalForm

/-!
# Counted loops

A counted loop, `[-` body `]`, takes one from its cell in each pass. The pieces of its body stand
some cells to the right of that cell, each at the end of a way there and back, and do not move by
themselves: each is a text without moves, or again a counted loop. If no way there is longer than
the tape less one cell, then no piece comes back to a cell that counts passes.

Where the pointer is relative to its start, and which cells count passes of open loops, is known at
each place of such a program without running it. This stays so when runs are joined and loops are
cleared.

* `IsBody`, `IsCounted`: the texts whose loops are counted.
* `Site`: what is known at a place; `Site.Step`, `Site.Walks`: what is known behind operations.
* `walks_of_isCounted`: something is known at every place of such a text.
* `walks_normalForm`: and at every place of its normal form.
-/

namespace TapeLang

namespace Source

/-! ## Texts -/

/-- A command that neither moves nor is a bracket. -/
def isPlain (ch : Char) : Bool := isAddition ch || ch == ',' || ch == '.'

/-- The body of a counted loop behind its `-`, whose ways lead `reach` cells to the right at most. -/
inductive IsBody : Nat → List Char → Prop
  | nil {reach : Nat} : IsBody reach []
  | plain {reach k : Nat} {piece rest : List Char} (hk : 0 < k) (hreach : k ≤ reach)
      (hpiece : ∀ ch ∈ piece, isPlain ch) (hrest : IsBody reach rest) :
    IsBody reach (List.replicate k '>' ++ (piece ++ (List.replicate k '<' ++ rest)))
  | loop {reach k : Nat} {body rest : List Char} (hk : 0 < k) (hreach : k ≤ reach)
      (hbody : IsBody (reach - k) body) (hrest : IsBody reach rest) :
    IsBody reach (List.replicate k '>' ++
      ('[' :: '-' :: (body ++ ']' :: (List.replicate k '<' ++ rest))))

/-- Commands all of whose loops are counted. -/
inductive IsCounted (reach : Nat) : List Char → Prop
  | nil : IsCounted reach []
  | command {ch : Char} {rest : List Char} (hch : isPlain ch ∨ isMovement ch)
      (hrest : IsCounted reach rest) : IsCounted reach (ch :: rest)
  | loop {body rest : List Char} (hbody : IsBody reach body) (hrest : IsCounted reach rest) :
    IsCounted reach ('[' :: '-' :: (body ++ ']' :: rest))

end Source

/-- May change the cell it is at. -/
def Op.changes : Op → Bool
  | .add _ | .reset | .read => true
  | _ => false

/-! ## Sites -/

/-- What is known at a place of a program, for a tape of `length` cells: how far to the right of the
start the pointer is, and how far the cells are that count the passes of the open loops, innermost
first. -/
@[ext]
structure Site (length : Nat) where
  counters : List (Fin length)
  offset : Fin length
  /-- The innermost loop has not yet taken one from its cell. -/
  fresh : Bool
  mem_of_fresh : fresh = true → offset ∈ counters

namespace Site

variable {length : Nat} {s s' s₁ : Site length} {op : Op} {ops more : List Op} {n : Nat}

def start (h : 0 < length) : Site length := ⟨[], ⟨0, h⟩, false, (absurd · Bool.false_ne_true)⟩

/-- `n` cells to the right. -/
def move (s : Site length) (n : Nat) : Site length :=
  ⟨s.counters, ⟨(s.offset + n) % length, Nat.mod_lt _ s.offset.pos⟩, false,
    (absurd · Bool.false_ne_true)⟩

def opened (s : Site length) : Site length :=
  ⟨s.offset :: s.counters, s.offset, true, fun _ => List.mem_cons_self⟩

/-- One has been taken from the counter. -/
def taken (s : Site length) : Site length :=
  ⟨s.counters, s.offset, false, (absurd · Bool.false_ne_true)⟩

/-- Inside the loops `outer` only. -/
def closed (s : Site length) (outer : List (Fin length)) : Site length :=
  ⟨outer, s.offset, false, (absurd · Bool.false_ne_true)⟩

/-- What is known behind an operation. A loop takes one from its cell first, and changes no cell that
counts after that; it ends where it started. -/
inductive Step : Site length → Op → Site length → Prop
  | move {s : Site length} (n : Nat) (hs : s.fresh = false) : Step s (.move n) (s.move n)
  | take {s : Site length} (hs : s.fresh = true) : Step s (.add 255) s.taken
  | change {s : Site length} {op : Op} (hop : op.changes) (hs : s.offset ∉ s.counters) :
    Step s op s
  | write {s : Site length} (hs : s.fresh = false) : Step s .write s
  | loopStart {s : Site length} (hs : s.offset ∉ s.counters) : Step s .loopStart s.opened
  | loopEnd {s : Site length} {outer : List (Fin length)} (hs : s.fresh = false)
      (hc : s.counters = s.offset :: outer) : Step s .loopEnd (s.closed outer)

inductive Walks : Site length → List Op → Site length → Prop
  | nil (s : Site length) : Walks s [] s
  | cons {s s₁ s' : Site length} {op : Op} {ops : List Op} (h : Step s op s₁)
      (hrest : Walks s₁ ops s') : Walks s (op :: ops) s'

theorem fresh_of_not_mem (h : s.offset ∉ s.counters) : s.fresh = false :=
  Bool.eq_false_iff.mpr fun hf => h (s.mem_of_fresh hf)

namespace Walks

theorem append (h : Walks s ops s₁) (h' : Walks s₁ more s') : Walks s (ops ++ more) s' := by
  induction h with
  | nil s => exact h'
  | cons hstep _ ih => exact .cons hstep (ih h')

theorem exists_of_append (h : Walks s (ops ++ more) s') :
    ∃ s₁, Walks s ops s₁ ∧ Walks s₁ more s' := by
  induction ops generalizing s with
  | nil => exact ⟨s, .nil s, h⟩
  | cons op ops ih =>
    cases h with
    | cons hstep hrest =>
      obtain ⟨s₁, hops, hmore⟩ := ih hrest
      exact ⟨s₁, .cons hstep hops, hmore⟩

end Walks

/-- Only one thing is known behind an operation. -/
theorem Step.unique (h : Step s op s₁) (h' : Step s op s') : s₁ = s' := by
  cases h with
  | move n hs =>
    cases h' with
    | move => rfl
    | change hop => cases hop
  | take hs =>
    cases h' with
    | take => rfl
    | change _ hs' => cases hs.symm.trans (fresh_of_not_mem hs')
  | change hop hs =>
    cases h' with
    | move => cases hop
    | take hs' => cases hs'.symm.trans (fresh_of_not_mem hs)
    | change => rfl
    | write => cases hop
    | loopStart => cases hop
    | loopEnd => cases hop
  | write hs =>
    cases h' with
    | change hop => cases hop
    | write => rfl
  | loopStart hs =>
    cases h' with
    | change hop => cases hop
    | loopStart => rfl
  | loopEnd hs hc =>
    cases h' with
    | change hop => cases hop
    | loopEnd hs' hc' =>
      rw [hc] at hc'
      cases hc'
      rfl

/-! ## Ways -/

theorem move_move (s : Site length) (m n : Nat) : (s.move m).move n = s.move (m + n) := by
  refine Site.ext rfl (Fin.ext ?_) rfl
  show ((s.offset + m) % length + n) % length = (s.offset + (m + n)) % length
  rw [Nat.mod_add_mod, Nat.add_assoc]

theorem move_congr (s : Site length) {m n : Nat} (h : m % length = n % length) :
    s.move m = s.move n := by
  refine Site.ext rfl (Fin.ext ?_) rfl
  show (s.offset + m) % length = (s.offset + n) % length
  rw [Nat.add_mod, h, ← Nat.add_mod]

theorem move_zero (hs : s.fresh = false) : s.move 0 = s := by
  refine Site.ext rfl (Fin.ext ?_) hs.symm
  exact Nat.mod_eq_of_lt s.offset.isLt

/-- Once round the tape. -/
theorem move_length_mul (hs : s.fresh = false) (n : Nat) : s.move (length * n) = s := by
  rw [s.move_congr ((Nat.mul_mod_right length n).trans (Nat.zero_mod length).symm), move_zero hs]

open Source

theorem commandOp_forward (hpos : 0 < length) : commandOp length '>' = .move (1 % length) :=
  congrArg Op.move (net_forward (by decide) hpos)

theorem commandOp_back (hpos : 0 < length) :
    commandOp length '<' = .move ((length - 1) % length) :=
  congrArg Op.move (net_back (by decide) hpos)

/-- Steps in one direction add up. -/
theorem walks_replicate {ch : Char} {m : Nat} (hop : commandOp length ch = .move (m % length))
    (hs : s.fresh = false) (k : Nat) :
    Walks s ((List.replicate k ch).map (commandOp length)) (s.move (m * k)) := by
  induction k generalizing s with
  | zero =>
    rw [Nat.mul_zero, move_zero hs]
    exact .nil s
  | succ k ih =>
    have hrest := @ih (s.move (m % length)) rfl
    rw [move_move, (s.move_congr (by rw [Nat.mul_succ, Nat.add_comm, Nat.add_mod, Nat.mod_mod,
      ← Nat.add_mod, Nat.add_comm]) : s.move (m % length + m * k) = s.move (m * (k + 1)))] at hrest
    rw [List.replicate_succ, List.map_cons, hop]
    exact .cons (.move _ hs) hrest

theorem walks_forward (hs : s.fresh = false) (k : Nat) :
    Walks s ((List.replicate k '>').map (commandOp length)) (s.move k) := by
  have h := walks_replicate (commandOp_forward s.offset.pos) hs k
  rwa [Nat.one_mul] at h

/-- The way back. -/
theorem walks_back (hs : s.fresh = false) (k : Nat) :
    Walks (s.move k) ((List.replicate k '<').map (commandOp length)) s := by
  have hpos := s.offset.pos
  have h := @walks_replicate length (s.move k) '<' _ (commandOp_back hpos) rfl k
  have hround : k + (length - 1) * k = length * k := by
    rw [Nat.sub_mul, Nat.one_mul]
    have := Nat.le_mul_of_pos_left k hpos
    omega
  rwa [move_move, hround, move_length_mul hs] at h

theorem walks_plain {piece : List Char} (hs : s.offset ∉ s.counters)
    (h : ∀ ch ∈ piece, isPlain ch) : Walks s (piece.map (commandOp length)) s := by
  induction piece with
  | nil => exact .nil s
  | cons ch piece ih =>
    refine .cons ?_ (ih fun a ha => h a (List.mem_cons_of_mem ch ha))
    have hch := h ch List.mem_cons_self
    simp only [isPlain, Bool.or_eq_true, beq_iff_eq] at hch
    rcases hch with (hadd | rfl) | rfl
    · rw [commandOp, blockOp_of_isAddition hadd]
      exact .change rfl hs
    · exact .change rfl hs
    · exact .write (fresh_of_not_mem hs)

/-! ## Texts whose loops are counted -/

/-- None of the `reach` cells to the right counts. -/
def Free (s : Site length) (reach : Nat) : Prop :=
  ∀ k, 0 < k → k ≤ reach → (s.move k).offset ∉ s.counters

theorem Free.move {reach k : Nat} (h : s.Free reach) (hreach : k ≤ reach) :
    (s.move k).Free (reach - k) := by
  intro m hm hle hmem
  rw [move_move] at hmem
  exact h (k + m) (by omega) (by omega) hmem

/-- A loop's own counter is not reached from inside, the way round the tape being longer. -/
theorem Free.opened {reach : Nat} (h : s.Free reach) (hlength : reach < length) :
    s.opened.taken.Free reach := by
  intro k hk hle hmem
  have hsame : (s.opened.taken.move k).offset = (s.move k).offset := rfl
  rw [hsame] at hmem
  rcases List.mem_cons.mp hmem with heq | hmem
  · have heq : (s.offset + k) % length = s.offset := congrArg Fin.val heq
    have hlt := s.offset.isLt
    rcases Nat.lt_or_ge (s.offset + k) length with hsmall | hlarge
    · rw [Nat.mod_eq_of_lt hsmall] at heq
      omega
    · rw [Nat.mod_eq_sub_mod hlarge, Nat.mod_eq_of_lt (by omega)] at heq
      omega
  · exact h k hk hle hmem

/-- The end of a loop that has just taken from its counter. -/
theorem step_closed (hs : s.offset ∉ s.counters) : Step s.opened.taken .loopEnd s := by
  have hclosed : s.opened.taken.closed s.counters = s :=
    Site.ext rfl rfl (fresh_of_not_mem hs).symm
  have hend : Step s.opened.taken .loopEnd (s.opened.taken.closed s.counters) := .loopEnd rfl rfl
  rwa [hclosed] at hend

/-- A loop whose body comes back to the counter. -/
theorem walks_loop {body rest : List Char} (hs : s.offset ∉ s.counters)
    (hbody : Walks s.opened.taken (body.map (commandOp length)) s.opened.taken)
    (hrest : Walks s (rest.map (commandOp length)) s') :
    Walks s (('[' :: '-' :: (body ++ ']' :: rest)).map (commandOp length)) s' := by
  rw [List.map_cons, List.map_cons, List.map_append, List.map_cons]
  exact .cons (.loopStart hs) (.cons (.take rfl) (hbody.append (.cons (step_closed hs) hrest)))

/-- One pass through a body leads back to its counter. -/
theorem walks_of_isBody {reach : Nat} {body : List Char} (h : IsBody reach body)
    (hlength : reach < length) (hs : s.fresh = false) (hfree : s.Free reach) :
    Walks s (body.map (commandOp length)) s := by
  induction h generalizing s with
  | nil => exact .nil s
  | @plain reach k piece rest hk hreach hpiece hrest ih =>
    rw [List.map_append, List.map_append, List.map_append]
    exact (walks_forward hs k).append ((walks_plain (hfree k hk hreach) hpiece).append
      ((walks_back hs k).append (ih hlength hs hfree)))
  | @loop reach k body rest hk hreach hbody hrest ihb ihr =>
    have hroom : reach - k < length := by omega
    have hinside := ihb hroom rfl ((hfree.move hreach).opened hroom)
    have hbehind := (walks_back hs k).append (ihr hlength hs hfree)
    rw [← List.map_append] at hbehind
    rw [List.map_append]
    exact (walks_forward hs k).append (walks_loop (hfree k hk hreach) hinside hbehind)

/-- Something is known at every place of a text whose loops are counted. -/
theorem walks_of_isCounted {reach : Nat} {text : List Char} (h : IsCounted reach text)
    (hlength : reach < length) (hs : s.counters = []) :
    ∃ s', Walks s (text.map (commandOp length)) s' := by
  induction h generalizing s with
  | nil => exact ⟨s, .nil s⟩
  | @command ch rest hch hrest ih =>
    rcases hch with hplain | hmove
    · obtain ⟨s', hs'⟩ := ih hs
      have hone := @walks_plain length s [ch] (by simp [hs]) (by simpa using hplain)
      exact ⟨s', hone.append hs'⟩
    · obtain ⟨s', hs'⟩ := @ih (s.move (net '>' '<' length [ch])) hs
      refine ⟨s', .cons ?_ hs'⟩
      rw [commandOp, blockOp_of_isMovement hmove]
      exact .move _ (fresh_of_not_mem (by simp [hs]))
  | @loop body rest hbody hrest ih =>
    obtain ⟨s', hs'⟩ := ih hs
    have hfree : s.Free reach := fun k _ _ => by
      rw [hs]
      exact List.not_mem_nil
    exact ⟨s', walks_loop (by simp [hs]) (walks_of_isBody hbody hlength rfl (hfree.opened hlength))
      hs'⟩

/-! ## Joining and clearing -/

/-- Moves come to one move. -/
theorem Walks.movements {run : List Char} (h : Walks s (run.map (commandOp length)) s')
    (hrun : ∀ ch ∈ run, isMovement ch) (hs : s.fresh = false) :
    s' = s.move (net '>' '<' length run) := by
  have hpos := s.offset.pos
  induction run generalizing s with
  | nil =>
    cases h
    have hzero : net '>' '<' length [] = 0 := rfl
    rw [hzero, move_zero hs]
  | cons ch run ih =>
    rw [List.map_cons, commandOp, blockOp_of_isMovement (hrun ch List.mem_cons_self)] at h
    cases h with
    | cons hstep hrest =>
      cases hstep with
      | move n hs =>
        rw [ih hrest (fun a ha => hrun a (List.mem_cons_of_mem ch ha)) rfl, move_move]
        have hsum := addMod_net hpos '>' '<' [ch] run
        rw [addMod_eq (net_lt hpos ..) (net_lt hpos ..), List.singleton_append] at hsum
        exact s.move_congr (hsum.trans (Nat.mod_eq_of_lt (net_lt hpos ..)).symm)
      | change hop => cases hop

/-- An addition is the first of its loop, or to a cell that does not count. -/
theorem Step.add_cases (h : Step s (.add n) s') :
    (s.fresh = true ∧ n = 255 ∧ s' = s.taken) ∨ (s.offset ∉ s.counters ∧ s' = s) := by
  generalize hop : Op.add n = op at h
  cases h with
  | take hs => exact .inl ⟨hs, Op.add.inj hop, rfl⟩
  | change _ hs => exact .inr ⟨hs, rfl⟩
  | move | write | loopStart | loopEnd => cases hop

/-- Additions behind the first of a loop are to a cell that does not count. -/
theorem Walks.additions {run : List Char} (h : Walks s (run.map (commandOp length)) s')
    (hrun : ∀ a ∈ run, isAddition a) (hs : s.fresh = false) :
    (run ≠ [] → s.offset ∉ s.counters) ∧ s' = s := by
  induction run generalizing s with
  | nil =>
    cases h
    exact ⟨fun hne => absurd rfl hne, rfl⟩
  | cons ch run ih =>
    rw [List.map_cons, commandOp, blockOp_of_isAddition (hrun ch List.mem_cons_self)] at h
    cases h with
    | cons hstep hrest =>
      obtain ⟨hfresh, -⟩ | ⟨hfree, rfl⟩ := hstep.add_cases
      · cases hs.symm.trans hfresh
      · exact ⟨fun _ => hfree, (ih hrest (fun a ha => hrun a (List.mem_cons_of_mem ch ha)) hs).2⟩

/-- What is known behind the commands of a block is known behind its operation. The first step of a
loop stands alone in its block. -/
theorem Walks.block {joinRuns : Bool} {block : List Char} (hblock : IsBlock joinRuns block)
    (h : Walks s (block.map (commandOp length)) s') : Step s (blockOp length block) s' := by
  cases hblock with
  | single =>
    cases h with
    | cons hstep hrest =>
      cases hrest
      exact hstep
  | @movements ch rest _ hall =>
    have hmove := hall ch List.mem_cons_self
    have hs : s.fresh = false := by
      rw [List.map_cons, commandOp, blockOp_of_isMovement hmove] at h
      cases h with
      | cons hstep =>
        cases hstep with
        | move _ hs => exact hs
        | change hop => cases hop
    rw [blockOp_of_isMovement hmove, h.movements hall hs]
    exact .move _ hs
  | @additions ch rest _ hall =>
    have hadd := hall ch List.mem_cons_self
    have hrest (a : Char) (ha : a ∈ rest) : isAddition a := hall a (List.mem_cons_of_mem ch ha)
    rw [List.map_cons] at h
    cases h with
    | @cons _ s₁ _ _ _ hstep hwalks =>
      have hfirst := hstep
      rw [commandOp, blockOp_of_isAddition hadd] at hfirst
      obtain ⟨hfresh, -, rfl⟩ | ⟨hfree, rfl⟩ := hfirst.add_cases
      · obtain ⟨hfree, rfl⟩ := hwalks.additions hrest rfl
        obtain rfl : rest = [] := Classical.byContradiction fun hne =>
          hfree hne (s.mem_of_fresh hfresh)
        exact hstep
      · rw [(hwalks.additions hrest (fresh_of_not_mem hfree)).2, blockOp_of_isAddition hadd]
        exact .change rfl hfree

theorem Walks.blocks {joinRuns : Bool} {bs : List (List Char)}
    (hbs : ∀ b ∈ bs, IsBlock joinRuns b) (h : Walks s (bs.flatten.map (commandOp length)) s') :
    Walks s (bs.map (blockOp length)) s' := by
  induction bs generalizing s with
  | nil => exact h
  | cons b bs ih =>
    rw [List.flatten_cons, List.map_append] at h
    obtain ⟨s₁, hb, hrest⟩ := h.exists_of_append
    exact .cons (hb.block (hbs b List.mem_cons_self))
      (ih (fun a ha => hbs a (List.mem_cons_of_mem b ha)) hrest)

/-- An idle operation may be dropped. -/
theorem Step.idle (h : Step s op s') (hi : op.isIdle) : s' = s := by
  cases h with
  | move n hs =>
    obtain rfl : n = 0 := by simpa [Op.isIdle, Op.count] using hi
    exact move_zero hs
  | change => rfl
  | take | write | loopStart | loopEnd => cases hi

/-- The first operation of a loop takes one from its counter. -/
theorem Step.of_fresh (h : Step s op s') (hs : s.fresh = true) : op = .add 255 ∧ s' = s.taken := by
  cases h with
  | take => exact ⟨rfl, rfl⟩
  | change _ hfree | loopStart hfree => exact absurd (s.mem_of_fresh hs) hfree
  | move _ hs' | write hs' | loopEnd hs' => cases hs.symm.trans hs'

/-- A loop that clears its cell does nothing else. -/
theorem Walks.clear {rest behind : List Op} (h : Walks s (.loopStart :: rest) s')
    (hclear : behindClear? rest = some behind) : Walks s (.reset :: behind) s' := by
  obtain ⟨idle, step, rfl, hidle, hu⟩ := behindClear?_eq_some.mp hclear
  cases h with
  | cons hstart hrest =>
    cases hstart with
    | change hop => cases hop
    | loopStart hs =>
      cases idle with
      | cons op idle =>
        cases hrest with
        | cons hfirst =>
          have hi := hidle op List.mem_cons_self
          rw [(hfirst.of_fresh rfl).1] at hi
          cases hi
      | nil =>
        cases hrest with
        | cons hfirst hrest =>
          obtain ⟨-, rfl⟩ := hfirst.of_fresh rfl
          cases hrest with
          | cons hend hbehind =>
            obtain rfl := hend.unique (step_closed hs)
            exact .cons (.change rfl hs) hbehind

theorem Walks.reduce {clearLoops : Bool} (h : Walks s ops s') :
    Walks s (reduce clearLoops ops) s' := by
  fun_induction Source.reduce clearLoops ops generalizing s with
  | case1 => exact h
  | case2 rest behind hb hc ih =>
    cases h.clear hb with
    | cons hstep hrest => exact .cons hstep (ih hrest)
  | case3 rest behind hb hc ih =>
    cases h with
    | cons hstep hrest => exact .cons hstep (ih hrest)
  | case4 rest hb ih =>
    cases h with
    | cons hstep hrest => exact .cons hstep (ih hrest)
  | case5 op rest hop hi ih =>
    cases h with
    | cons hstep hrest => exact ih (hstep.idle hi ▸ hrest)
  | case6 op rest hop hi ih =>
    cases h with
    | cons hstep hrest => exact .cons hstep (ih hrest)

/-- Something is known at every place of a program whose text has counted loops only. -/
theorem walks_normalForm {text : List Char} (hpos : 0 < length)
    (h : IsCounted (length - 1) (commands text)) (o : Optimisations) :
    ∃ s', Walks (.start hpos) (normalForm length o text) s' := by
  obtain ⟨s', hs'⟩ := walks_of_isCounted h (Nat.sub_lt hpos Nat.one_pos)
    (show (Site.start hpos).counters = [] from rfl)
  have hflat : commands text = (Source.blocks o.joinRuns text).flatten := by
    rw [Source.blocks, List.flatten_splitBy]
  rw [hflat] at hs'
  exact ⟨s', (hs'.blocks fun b => isBlock_of_mem_blocks).reduce⟩

end Site

end TapeLang
