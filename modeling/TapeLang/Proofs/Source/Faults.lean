import TapeLang.Proofs.Source.Blocks

/-!
# Faults in the brackets of a text

The depth behind a part of a text is the number of its `[` less that of its `]`. A text can be read
just if the depth stays in range in all its prefixes and comes back to zero; otherwise the fault is
at the first character that leads out of range, or at the last `[` that is never closed.

* `Closed`: the bracket in front of a text is closed in it.
* `Opens`: the brackets that a text leaves open, each with what stands behind it.
* `Blames`: what is wrong with a text, and where.
* `verdict_of_parse`: reading blames what is wrong.
* `parse_verdict`: whether a text can be read, the fault of one that cannot, and that comments do
  not matter.
-/

namespace TapeLang

namespace Source

/-! ## Depth -/

/-- How deep loops are nested behind `text`. -/
def depth (text : List Char) : Int := text.count '[' - text.count ']'

@[simp] theorem depth_nil : depth [] = 0 := rfl

@[simp] theorem depth_append (a b : List Char) : depth (a ++ b) = depth a + depth b := by
  simp only [depth, List.count_append]
  omega

theorem depth_cons (ch : Char) (text : List Char) :
    depth (ch :: text) = depth [ch] + depth text := depth_append [ch] text

@[simp] theorem depth_opening : depth ['['] = 1 := rfl

@[simp] theorem depth_closing : depth [']'] = -1 := rfl

theorem depth_of_none {ch : Char} (h : Bracket.ofChar? ch = none) : depth [ch] = 0 := by
  have hopening : ch ≠ '[' := by
    rintro rfl
    cases h
  have hclosing : ch ≠ ']' := by
    rintro rfl
    cases h
  simp [depth, hopening, hclosing]

/-- A character changes the depth by one at most. -/
theorem depth_cases (ch : Char) :
    ch = '[' ∨ ch = ']' ∨ Bracket.ofChar? ch = none ∧ depth [ch] = 0 := by
  by_cases hopening : ch = '['
  · exact .inl hopening
  by_cases hclosing : ch = ']'
  · exact .inr (.inl hclosing)
  have hnone : Bracket.ofChar? ch = none := by
    unfold Bracket.ofChar?
    split <;> first | contradiction | rfl
  exact .inr (.inr ⟨hnone, depth_of_none hnone⟩)

/-- Loops are nested less than `maxDepth` deep, and no `]` is too many. -/
def InRange (maxDepth : Nat) (text : List Char) : Prop := 0 ≤ depth text ∧ depth text < maxDepth

/-- The brackets of a text close each other. -/
structure Balanced (text : List Char) : Prop where
  nonneg : ∀ pre, pre <+: text → 0 ≤ depth pre
  zero : depth text = 0

/-- A `[` right in front of `text` is closed in it. -/
def Closed (text : List Char) : Prop :=
  ∃ body rest, text = body ++ ']' :: rest ∧ Balanced body

theorem exists_of_prefix_append {pre a b : List Char} (h : pre <+: a ++ b) :
    pre <+: a ∨ ∃ more, pre = a ++ more ∧ more <+: b := by
  obtain ⟨rest, hrest⟩ := h
  rcases List.append_eq_append_iff.mp hrest with ⟨more, rfl, -⟩ | ⟨more, rfl, rfl⟩
  · exact .inl (List.prefix_append _ _)
  · exact .inr ⟨more, rfl, List.prefix_append _ _⟩

namespace Balanced

variable {a b : List Char}

theorem nil : Balanced [] where
  nonneg pre h := by
    rw [List.prefix_nil.mp h]
    exact Int.le_refl 0
  zero := rfl

/-- A character that is no bracket. -/
theorem concat {ch : Char} (h : Balanced a) (hch : depth [ch] = 0) : Balanced (a ++ [ch]) where
  nonneg pre hpre := by
    rcases List.prefix_concat_iff.mp hpre with rfl | hpre
    · rw [depth_append, h.zero, hch]
      omega
    · exact h.nonneg pre hpre
  zero := by rw [depth_append, h.zero, hch, Int.add_zero]

/-- A loop around what is balanced. -/
theorem loop (ha : Balanced a) (hb : Balanced b) : Balanced (a ++ '[' :: (b ++ [']'])) where
  nonneg pre hpre := by
    rcases exists_of_prefix_append hpre with hpre | ⟨more, rfl, hmore⟩
    · exact ha.nonneg pre hpre
    rw [depth_append, ha.zero]
    rcases List.prefix_cons_iff.mp hmore with rfl | ⟨inner, rfl, hinner⟩
    · simp
    rw [depth_cons, depth_opening]
    rcases List.prefix_concat_iff.mp hinner with rfl | hinner
    · rw [depth_append, hb.zero, depth_closing]
      omega
    · have := hb.nonneg inner hinner
      omega
  zero := by
    rw [depth_append, depth_cons, depth_append, ha.zero, hb.zero]
    rfl

/-- A balanced text closes nothing in front of it. -/
theorem not_closed (h : Balanced a) : ¬ Closed a := by
  rintro ⟨body, rest, rfl, hbody⟩
  have hpre : body ++ [']'] <+: body ++ ']' :: rest := by
    rw [← List.singleton_append (x := ']') (l := rest), ← List.append_assoc]
    exact List.prefix_append _ _
  have := h.nonneg _ hpre
  rw [depth_append, hbody.zero, depth_closing] at this
  omega

end Balanced

/-- A text that goes below the depth `n` in front of it does so at a first `]`. -/
theorem exists_of_depth_neg {text : List Char} {n : Int} (hn : 0 ≤ n) (h : n + depth text < 0) :
    ∃ body rest, text = body ++ ']' :: rest ∧ (∀ pre, pre <+: body → 0 ≤ n + depth pre) ∧
      n + depth body = 0 := by
  induction text generalizing n with
  | nil =>
    rw [depth_nil] at h
    omega
  | cons ch text ih =>
    rw [depth_cons] at h
    -- the depth in front of what follows, unless the `]` is here
    by_cases hstop : n + depth [ch] < 0
    · obtain rfl : ch = ']' := by
        rcases depth_cases ch with rfl | rfl | ⟨-, hzero⟩
        · rw [depth_opening] at hstop
          omega
        · rfl
        · omega
      rw [depth_closing] at hstop
      refine ⟨[], text, rfl, ?_, ?_⟩
      · intro pre hpre
        rw [List.prefix_nil.mp hpre, depth_nil]
        omega
      · rw [depth_nil]
        omega
    · obtain ⟨body, rest, rfl, hbody, hzero⟩ := ih (n := n + depth [ch]) (by omega) (by omega)
      refine ⟨ch :: body, rest, rfl, ?_, ?_⟩
      · intro pre hpre
        rcases List.prefix_cons_iff.mp hpre with rfl | ⟨inner, rfl, hinner⟩
        · rw [depth_nil]
          omega
        · have := hbody inner hinner
          rw [depth_cons]
          omega
      · rw [depth_cons]
        omega

theorem closed_of_depth_neg {text : List Char} (h : depth text < 0) : Closed text := by
  have hneg : 0 + depth text < 0 := by omega
  obtain ⟨body, rest, rfl, hbody, hzero⟩ := exists_of_depth_neg (Int.le_refl 0) hneg
  refine ⟨body, rest, rfl, ?_, by omega⟩
  intro pre hpre
  have := hbody pre hpre
  omega

/-- In a balanced text each bracket is closed. -/
theorem Balanced.closed {before after : List Char} (h : Balanced (before ++ '[' :: after)) :
    Closed after := by
  apply closed_of_depth_neg
  have hbefore := h.nonneg before (List.prefix_append _ _)
  have hzero := h.zero
  rw [depth_append, depth_cons, depth_opening] at hzero
  omega

/-! ## Open brackets -/

/-- The brackets at the indices `opens`, innermost first, are open behind `text`: what stands
behind each of them is balanced up to the next. -/
inductive Opens : List Char → List Nat → Prop
  | balanced {text : List Char} : Balanced text → Opens text []
  | bracket {text body : List Char} {opens : List Nat} : Opens text opens → Balanced body →
    Opens (text ++ '[' :: body) (text.length :: opens)

namespace Opens

variable {text : List Char} {opens : List Nat} {index : Nat}

theorem depth_eq (h : Opens text opens) : depth text = opens.length := by
  induction h with
  | balanced hb => simpa using hb.zero
  | bracket _ hb ih =>
    rw [depth_append, depth_cons, depth_opening, hb.zero, ih, List.length_cons]
    omega

theorem concat {ch : Char} (h : Opens text opens) (hch : depth [ch] = 0) :
    Opens (text ++ [ch]) opens := by
  cases h with
  | balanced hb => exact .balanced (hb.concat hch)
  | bracket ho hb =>
    rw [List.append_assoc, List.cons_append]
    exact .bracket ho (hb.concat hch)

theorem opening (h : Opens text opens) : Opens (text ++ ['[']) (text.length :: opens) :=
  .bracket h .nil

/-- A `]` closes the innermost bracket, and makes one balanced text of what is around it. -/
theorem closing (h : Opens text (index :: opens)) : Opens (text ++ [']']) opens := by
  cases h with
  | bracket ho hb =>
    rw [List.append_assoc, List.cons_append]
    cases ho with
    | balanced ha => exact .balanced (ha.loop hb)
    | bracket ho ha =>
      rw [List.append_assoc, List.cons_append]
      exact .bracket ho (ha.loop hb)

end Opens

/-! ## Faults -/

/-- What is wrong with the brackets of a text, and where. -/
inductive Blames (maxDepth : Nat) : List Char → BracketError → Prop
  /-- The first character that leads out of range is a `]` too many. -/
  | unmatchedClose {before after : List Char} {ch : Char} :
    (∀ pre, pre <+: before → InRange maxDepth pre) → depth (before ++ [ch]) = -1 →
    Blames maxDepth (before ++ ch :: after) (.unmatchedClose (.single before.length))
  /-- The first character that leads out of range is a `[` too deep. -/
  | tooDeep {before after : List Char} {ch : Char} :
    (∀ pre, pre <+: before → InRange maxDepth pre) → depth (before ++ [ch]) = maxDepth →
    Blames maxDepth (before ++ ch :: after) (.tooDeep (.single before.length) maxDepth)
  /-- Nothing leads out of range. The last `[` that has no matching `]`. -/
  | unmatchedOpen {before after : List Char} :
    (∀ pre, pre <+: before ++ '[' :: after → InRange maxDepth pre) → ¬ Closed after →
    (∀ x y, after = x ++ '[' :: y → Closed y) →
    Blames maxDepth (before ++ '[' :: after) (.unmatchedOpen (.single before.length))

/-- Nothing is wrong with the brackets of a text. -/
structure Fine (maxDepth : Nat) (text : List Char) : Prop where
  inRange : ∀ pre, pre <+: text → InRange maxDepth pre
  zero : depth text = 0

variable {maxDepth : Nat} {text : List Char} {e e' : BracketError}

theorem prefix_through (before : List Char) (ch : Char) (after : List Char) :
    before ++ [ch] <+: before ++ ch :: after := ⟨after, by simp⟩

/-- The first character that leads out of range is the only one. -/
theorem eq_of_first {before before' after after' : List Char} {ch ch' : Char}
    (he : before ++ ch :: after = before' ++ ch' :: after')
    (h : ∀ pre, pre <+: before → InRange maxDepth pre)
    (h' : ∀ pre, pre <+: before' → InRange maxDepth pre)
    (hout : ¬ InRange maxDepth (before ++ [ch])) (hout' : ¬ InRange maxDepth (before' ++ [ch'])) :
    before = before' ∧ ch = ch' := by
  have hle {x y : List Char} {a b : Char} {u v : List Char} (he : x ++ a :: u = y ++ b :: v)
      (hy : ∀ pre, pre <+: y → InRange maxDepth pre) (hx : ¬ InRange maxDepth (x ++ [a])) :
      y.length ≤ x.length := by
    apply Nat.le_of_not_lt
    intro hlt
    have hpre : x ++ [a] <+: y :=
      List.prefix_of_prefix_length_le (he ▸ prefix_through x a u) (List.prefix_append y _)
        (by simpa using Nat.succ_le_of_lt hlt)
    exact hx (hy _ hpre)
  have hlength := Nat.le_antisymm (hle he.symm h hout') (hle he h' hout)
  obtain ⟨rfl, hrest⟩ := List.append_inj he hlength
  exact ⟨rfl, (List.cons.inj hrest).1⟩

/-- The last bracket that is never closed is the only one. -/
theorem length_le_of_last {before before' after after' : List Char}
    (he : before ++ '[' :: after = before' ++ '[' :: after')
    (h : ∀ x y, after = x ++ '[' :: y → Closed y) (h' : ¬ Closed after') :
    before'.length ≤ before.length := by
  apply Nat.le_of_not_lt
  intro hlt
  rcases List.append_eq_append_iff.mp he with ⟨more, rfl, hmore⟩ | ⟨more, rfl, -⟩
  · cases more with
    | nil => simp at hlt
    | cons ch more =>
      rw [List.cons_append, List.cons.injEq] at hmore
      exact h' (h more after' hmore.2)
  · rw [List.length_append] at hlt
    omega

/-- At most one thing is wrong with a text. -/
theorem Blames.unique (h : Blames maxDepth text e) (h' : Blames maxDepth text e') : e = e' := by
  have hneg {pre : List Char} (hd : depth pre = -1) : ¬ InRange maxDepth pre := fun h => by
    have := h.1
    omega
  have hdeep {pre : List Char} (hd : depth pre = maxDepth) : ¬ InRange maxDepth pre := fun h => by
    have := h.2
    omega
  obtain ⟨u, hu⟩ : ∃ u, u = text := ⟨text, rfl⟩
  rw [← hu] at h'
  cases h with
  | unmatchedClose hr hd =>
    cases h' with
    | unmatchedClose hr' hd' => rw [(eq_of_first hu hr' hr (hneg hd') (hneg hd)).1]
    | tooDeep hr' hd' =>
      obtain ⟨rfl, rfl⟩ := eq_of_first hu hr' hr (hdeep hd') (hneg hd)
      omega
    | unmatchedOpen hr' _ _ => exact absurd (hr' _ (hu ▸ prefix_through ..)) (hneg hd)
  | tooDeep hr hd =>
    cases h' with
    | unmatchedClose hr' hd' =>
      obtain ⟨rfl, rfl⟩ := eq_of_first hu hr' hr (hneg hd') (hdeep hd)
      omega
    | tooDeep hr' hd' => rw [(eq_of_first hu hr' hr (hdeep hd') (hdeep hd)).1]
    | unmatchedOpen hr' _ _ => exact absurd (hr' _ (hu ▸ prefix_through ..)) (hdeep hd)
  | unmatchedOpen hr hopen hlast =>
    cases h' with
    | unmatchedClose _ hd' => exact absurd (hr _ (hu ▸ prefix_through ..)) (hneg hd')
    | tooDeep _ hd' => exact absurd (hr _ (hu ▸ prefix_through ..)) (hdeep hd')
    | unmatchedOpen _ hopen' hlast' =>
      rw [Nat.le_antisymm (length_le_of_last hu hlast' hopen)
        (length_le_of_last hu.symm hlast hopen')]

/-- Of a text that is fine nothing is blamed. -/
theorem Fine.not_blames (h : Fine maxDepth text) (e : BracketError) : ¬ Blames maxDepth text e := by
  intro he
  cases he with
  | unmatchedClose _ hd =>
    have := (h.inRange _ (prefix_through ..)).1
    omega
  | tooDeep _ hd =>
    have := (h.inRange _ (prefix_through ..)).2
    omega
  | unmatchedOpen hr hopen _ =>
    exact hopen (Balanced.closed ⟨fun pre hpre => (h.inRange pre hpre).1, h.zero⟩)

theorem Opens.blames {index : Nat} {opens : List Nat} (h : Opens text (index :: opens))
    (hr : ∀ pre, pre <+: text → InRange maxDepth pre) :
    Blames maxDepth text (.unmatchedOpen (.single index)) := by
  cases h with
  | bracket ho hb =>
    refine .unmatchedOpen hr hb.not_closed ?_
    rintro x y rfl
    exact hb.closed

/-! ## Comments -/

theorem depth_commands (text : List Char) : depth (commands text) = depth text := by
  unfold depth commands
  rw [List.count_filter (by decide), List.count_filter (by decide)]

theorem forall_prefix_commands {P : Int → Prop} :
    (∀ pre, pre <+: commands text → P (depth pre)) ↔ ∀ pre, pre <+: text → P (depth pre) := by
  constructor
  · intro h pre hpre
    rw [← depth_commands]
    exact h _ (hpre.filter isCommand)
  · intro h pre hpre
    obtain ⟨whole, hwhole, rfl⟩ := List.prefix_filter_iff.mp hpre
    rw [show List.filter isCommand whole = commands whole from rfl, depth_commands]
    exact h whole hwhole

theorem balanced_commands : Balanced (commands text) ↔ Balanced text := by
  have hall := @forall_prefix_commands text (0 ≤ ·)
  constructor
  · intro h
    exact ⟨hall.mp h.nonneg, depth_commands text ▸ h.zero⟩
  · intro h
    exact ⟨hall.mpr h.nonneg, (depth_commands text).trans h.zero⟩

/-- A command among the commands of a text stands in the text. -/
theorem exists_of_commands_eq {x y : List Char} {ch : Char} (h : commands text = x ++ ch :: y) :
    ∃ before after, text = before ++ ch :: after ∧ commands before = x ∧ commands after = y := by
  obtain ⟨front, back, rfl, hfront, hback⟩ := List.filter_eq_append_iff.mp h
  obtain ⟨gap, after, rfl, hgap, -, hafter⟩ := List.filter_eq_cons_iff.mp hback
  refine ⟨front ++ gap, after, by simp, ?_, hafter⟩
  rw [commands, List.filter_append, hfront, List.filter_eq_nil_iff.mpr hgap, List.append_nil]

theorem commands_append (before : List Char) {ch : Char} (hch : isCommand ch)
    (after : List Char) :
    commands (before ++ ch :: after) = commands before ++ ch :: commands after := by
  simp [commands, hch]

theorem closed_commands : Closed (commands text) ↔ Closed text := by
  constructor
  · rintro ⟨body, rest, heq, hbody⟩
    obtain ⟨before, after, rfl, rfl, -⟩ := exists_of_commands_eq heq
    exact ⟨before, after, rfl, balanced_commands.mp hbody⟩
  · rintro ⟨body, rest, rfl, hbody⟩
    exact ⟨commands body, commands rest, commands_append body rfl rest,
      balanced_commands.mpr hbody⟩

theorem fine_commands : Fine maxDepth (commands text) ↔ Fine maxDepth text := by
  have hall := @forall_prefix_commands text fun d => 0 ≤ d ∧ d < maxDepth
  constructor
  · intro h
    exact ⟨hall.mp h.inRange, depth_commands text ▸ h.zero⟩
  · intro h
    exact ⟨hall.mpr h.inRange, (depth_commands text).trans h.zero⟩

/-- The number of commands in front of the character at `index`. -/
def commandsBefore (text : List Char) (index : Nat) : Nat := (commands (text.take index)).length

/-- The same fault at other indices. -/
def relocate (f : Nat → Nat) : BracketError → BracketError
  | .unmatchedClose p => .unmatchedClose ⟨f p.start, f p.stop⟩
  | .unmatchedOpen p => .unmatchedOpen ⟨f p.start, f p.stop⟩
  | .tooDeep p maxDepth => .tooDeep ⟨f p.start, f p.stop⟩ maxDepth

/-- A character that changes the depth is a command. -/
theorem isCommand_of_first {before : List Char} {ch : Char} (h : InRange maxDepth before)
    (hout : ¬ InRange maxDepth (before ++ [ch])) : isCommand ch := by
  rcases depth_cases ch with rfl | rfl | ⟨-, hzero⟩
  · rfl
  · rfl
  · refine absurd ?_ hout
    rw [InRange, depth_append, hzero, Int.add_zero]
    exact h

/-- Without its comments a text has the same fault, at the same command. -/
theorem Blames.commands (h : Blames maxDepth text e) :
    Blames maxDepth (commands text) (relocate (commandsBefore text) e) := by
  have hbefore (before after : List Char) :
      commandsBefore (before ++ after) before.length = (Source.commands before).length := by
    rw [commandsBefore, List.take_left]
  have hdepth {before : List Char} {ch : Char} (hch : isCommand ch) :
      depth (Source.commands before ++ [ch]) = depth (before ++ [ch]) := by
    rw [depth_append, depth_append, depth_commands]
  have hall {text : List Char} :=
    (@forall_prefix_commands text fun d => 0 ≤ d ∧ d < maxDepth).mpr
  cases h with
  | @unmatchedClose before after ch hr hd =>
    have hch : isCommand ch := by
      refine isCommand_of_first (hr _ List.prefix_rfl) ?_
      rw [InRange, hd]
      omega
    rw [commands_append _ hch, relocate, Position.single, hbefore]
    exact .unmatchedClose (hall hr) ((hdepth hch).trans hd)
  | @tooDeep before after ch hr hd =>
    have hch : isCommand ch := by
      refine isCommand_of_first (hr _ List.prefix_rfl) ?_
      rw [InRange, hd]
      omega
    rw [commands_append _ hch, relocate, Position.single, hbefore]
    exact .tooDeep (hall hr) ((hdepth hch).trans hd)
  | @unmatchedOpen before after hr hopen hlast =>
    have hinRange := hall hr
    rw [commands_append before rfl] at hinRange ⊢
    rw [relocate, Position.single, hbefore]
    refine .unmatchedOpen hinRange (closed_commands.not.mpr hopen) fun x y hxy => ?_
    obtain ⟨x, y, rfl, -, rfl⟩ := exists_of_commands_eq hxy
    exact closed_commands.mpr (hlast x y rfl)

end Source

/-! ## Reading -/

namespace Scan

open Source

variable {maxDepth : Nat} {text : List Char} {s s' : Scan}

/-- A scan that has got through `text` knows the brackets that are open behind it. -/
structure Reads (maxDepth : Nat) (text : List Char) (s : Scan) : Prop where
  inRange : ∀ pre, pre <+: text → InRange maxDepth pre
  opens : Opens text s.openLoops.toList.reverse

theorem Reads.concat {ch : Char} (h : Reads maxDepth text s)
    (ho : Opens (text ++ [ch]) s'.openLoops.toList.reverse)
    (hlt : depth (text ++ [ch]) < maxDepth) : Reads maxDepth (text ++ [ch]) s' where
  inRange pre hpre := by
    rcases List.prefix_concat_iff.mp hpre with rfl | hpre
    · refine ⟨?_, hlt⟩
      rw [ho.depth_eq]
      omega
    · exact h.inRange pre hpre
  opens := ho

/-- The next character is taken in, or is the first that leads out of range. -/
theorem Reads.step (h : Reads maxDepth text s) (ch : Char) (rest : List Char) :
    (∃ s', s.step maxDepth text.length ch = .ok s' ∧ Reads maxDepth (text ++ [ch]) s') ∨
    (∃ e, s.step maxDepth text.length ch = .error e ∧ Blames maxDepth (text ++ ch :: rest) e) := by
  have hsize : depth text = s.openLoops.size := by simpa using h.opens.depth_eq
  have hhere := (h.inRange text List.prefix_rfl).2
  rcases depth_cases ch with rfl | rfl | ⟨hnone, hzero⟩
  · by_cases hdeep : maxDepth ≤ s.openLoops.size + 1
    · refine .inr ⟨_, if_pos hdeep, .tooDeep h.inRange ?_⟩
      rw [depth_append, depth_opening]
      omega
    · refine .inl ⟨_, if_neg hdeep, h.concat ?_ ?_⟩
      · simpa using h.opens.opening
      · rw [depth_append, depth_opening]
        omega
  · by_cases hempty : s.openLoops.isEmpty
    · refine .inr ⟨_, if_pos hempty, .unmatchedClose h.inRange ?_⟩
      rw [Array.isEmpty_iff] at hempty
      rw [depth_append, depth_closing, hsize, hempty]
      rfl
    · refine .inl ⟨_, if_neg hempty, h.concat ?_ ?_⟩
      · have hne : s.openLoops.toList ≠ [] := by simpa using hempty
        have hopens := h.opens
        rw [← List.dropLast_append_getLast hne, List.reverse_append] at hopens
        simpa using hopens.closing
      · rw [depth_append, depth_closing]
        omega
  · obtain ⟨s', hs, ho⟩ := exists_step_of_none hnone s text.length
    refine .inl ⟨s', hs, h.concat ?_ ?_⟩
    · rw [ho]
      exact h.opens.concat hzero
    · rw [depth_append, hzero]
      omega

theorem Reads.steps (h : Reads maxDepth text s) (rest : List Char) :
    match s.steps maxDepth text.length rest with
    | .ok s' => Reads maxDepth (text ++ rest) s'
    | .error e => Blames maxDepth (text ++ rest) e := by
  induction rest generalizing text s with
  | nil => simpa [Scan.steps] using h
  | cons ch rest ih =>
    rcases h.step ch rest with ⟨s', hs, hnext⟩ | ⟨e, hs, hblames⟩
    · have := ih hnext
      simpa [Scan.steps, hs] using this
    · simpa [Scan.steps, hs] using hblames

end Scan

open Source

/-- Reading blames what is wrong with a text, if anything is. -/
theorem verdict_of_parse (source : String) (c : Config) :
    match parse source c with
    | .ok _ => Fine c.maxDepth source.toList
    | .error e => Blames c.maxDepth source.toList e := by
  have hstart : Scan.Reads c.maxDepth [] (Scan.start c) := by
    refine ⟨fun pre hpre => ?_, .balanced .nil⟩
    rw [List.prefix_nil.mp hpre]
    exact ⟨Int.le_refl 0, by simpa using c.maxDepth_pos⟩
  have hsteps := hstart.steps source.toList
  rw [List.length_nil, List.nil_append] at hsteps
  unfold parse scan
  generalize (Scan.start c).steps c.maxDepth 0 source.toList = result at hsteps ⊢
  cases result with
  | error e => exact hsteps
  | ok s =>
    have hreads : Scan.Reads c.maxDepth source.toList s := hsteps
    have hlast : s.openLoops.back? = s.openLoops.toList.reverse.head? := by simp
    have hopens := hreads.opens
    simp only [hlast]
    cases hl : s.openLoops.toList.reverse with
    | nil =>
      rw [hl] at hopens
      exact ⟨hreads.inRange, hopens.depth_eq⟩
    | cons index opens =>
      rw [hl] at hopens
      exact hopens.blames hreads.inRange

/-- A text can be read just if nothing is wrong with it. -/
theorem exists_parse_iff_fine (source : String) (c : Config) :
    (∃ p, parse source c = .ok p) ↔ Fine c.maxDepth source.toList := by
  have hverdict := verdict_of_parse source c
  cases hparse : parse source c with
  | ok p =>
    rw [hparse] at hverdict
    exact iff_of_true ⟨p, rfl⟩ hverdict
  | error e =>
    rw [hparse] at hverdict
    exact iff_of_false nofun fun h => h.not_blames e hverdict

/-- What is blamed is what is wrong. -/
theorem parse_eq_error_iff (source : String) (c : Config) (e : BracketError) :
    parse source c = .error e ↔ Blames c.maxDepth source.toList e := by
  have hverdict := verdict_of_parse source c
  cases hparse : parse source c with
  | ok p =>
    rw [hparse] at hverdict
    exact iff_of_false nofun (Fine.not_blames hverdict e)
  | error e' =>
    rw [hparse] at hverdict
    constructor
    · intro h
      obtain rfl := Except.error.inj h
      exact hverdict
    · intro h
      rw [Blames.unique h hverdict]

/-- A text can be read just if the depth is in range behind each of its prefixes and zero at its
end. Otherwise the first character that leads out of range is blamed, or the last `[` that is never
closed. Neither depends on the tape, the optimisations or the comments of the text: where the
commands of two texts are the same, their faults are at the same command. -/
theorem parse_verdict (source : String) (c : Config) :
    ((∃ p, parse source c = .ok p) ↔
      (∀ pre, pre <+: source.toList → 0 ≤ depth pre ∧ depth pre ≤ (c.maxDepth : Int) - 1) ∧
        depth source.toList = 0) ∧
    (∀ e, parse source c = .error e ↔ Blames c.maxDepth source.toList e) ∧
    ∀ (source' : String) (c' : Config), c'.maxDepth = c.maxDepth →
      commands source'.toList = commands source.toList →
      ((∃ p, parse source' c' = .ok p) ↔ ∃ p, parse source c = .ok p) ∧
      ∀ e, parse source c = .error e → ∃ e', parse source' c' = .error e' ∧
        relocate (commandsBefore source'.toList) e' =
          relocate (commandsBefore source.toList) e := by
  refine ⟨?_, parse_eq_error_iff source c, ?_⟩
  · rw [exists_parse_iff_fine]
    constructor
    · intro h
      refine ⟨fun pre hpre => ?_, h.zero⟩
      have := h.inRange pre hpre
      exact ⟨this.1, Int.le_sub_one_of_lt this.2⟩
    · rintro ⟨hr, hzero⟩
      refine ⟨fun pre hpre => ?_, hzero⟩
      have := hr pre hpre
      exact ⟨this.1, Int.lt_of_le_sub_one this.2⟩
  · intro source' c' hdepth hcommands
    have hfine : (∃ p, parse source' c' = .ok p) ↔ ∃ p, parse source c = .ok p := by
      rw [exists_parse_iff_fine, exists_parse_iff_fine, ← fine_commands, hcommands, hdepth,
        fine_commands]
    refine ⟨hfine, fun e he => ?_⟩
    cases hparse : parse source' c' with
    | ok p =>
      obtain ⟨q, hq⟩ := hfine.mp ⟨p, hparse⟩
      cases he.symm.trans hq
    | error e' =>
      have hleft := ((parse_eq_error_iff source' c' e').mp hparse).commands
      have hright := ((parse_eq_error_iff source c e).mp he).commands
      rw [hcommands, hdepth] at hleft
      exact ⟨e', rfl, hleft.unique hright⟩

/-- The second bracket of `[a[` is the last one that is open, with a comment or without. -/
theorem parse_verdict_open :
    parse "[a[" .standard = .error (.unmatchedOpen (.single 2)) ∧
      ∃ e, parse "[[" .standard = .error e ∧
        relocate (commandsBefore "[[".toList) e = .unmatchedOpen (.single 1) := by
  have hfault : parse "[a[" .standard = .error (.unmatchedOpen (.single 2)) := by rfl
  obtain ⟨-, -, hsame⟩ := parse_verdict "[a[" .standard
  obtain ⟨-, herror⟩ := hsame "[[" .standard rfl (by decide)
  obtain ⟨e, he, hplace⟩ := herror _ hfault
  exact ⟨hfault, e, he, hplace.trans rfl⟩

end TapeLang
