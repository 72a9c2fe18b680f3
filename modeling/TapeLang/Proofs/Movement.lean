import TapeLang.Assembler
import TapeLang.Proofs.Checked
import TapeLang.Proofs.MachineCode.Blocks
import TapeLang.Proofs.Native.Body

/-!
# Ways round the tape

A sum of counts, taken round the circle, is found in four ways: by the reader, which joins moves, by
the tape, and by the machine code of a move, with a mask for the lengths that are powers of two and
with a comparison for all others. All of them find the same cell, and none of them needs a number
that does not fit in a machine word.

* `addMod?`: the sum of two counts with every step checked.
* `X86.Cpu.after?`: a processor that carries out the instructions of a text.
* `MachineCode.Moves`, `MachineCode.moves_move`: what the code of a move does, wherever it stands.
* `Source.joined`, `Tape.walk`: single steps joined into one count, and taken one by one.
* `Source.foldl_push_joined`: what the reader makes of steps. `Tape.walk_advance`: the move by the
  joined count ends where the single steps end.
* `ways_agree`: all ways lead to the same cell.
-/

namespace TapeLang

open X86 Source

/-! ## Sums -/

/-- `addMod` with every step checked, and the counts that it is given as well. -/
def addMod? (a b m : Nat) : Option Nat :=
  if a < m ∧ b < m then do
    let room ← Word.sub? m b
    if room ≤ a then Word.sub? a room else Word.add? a b
  else none

theorem addMod?_eq {a b m : Nat} (ha : a < m) (hb : b < m) (hm : m < wordLimit) :
    addMod? a b m = some (addMod a b m) := by
  have hroom : Word.sub? m b = some (m - b) := if_pos (Nat.le_of_lt hb)
  rw [addMod?, if_pos ⟨ha, hb⟩, hroom, addMod]
  simp only [bind, Option.bind]
  by_cases h : m - b ≤ a
  · rw [if_pos h, if_pos h]
    exact if_pos h
  · -- below the room that is left the sum is below `m`
    rw [if_neg h, if_neg h]
    exact if_pos (by omega)

theorem addMod_lt {a b m : Nat} (ha : a < m) (hb : b < m) : addMod a b m < m := by
  rw [addMod_eq ha hb]
  exact Nat.mod_lt _ (Nat.zero_lt_of_lt ha)

/-! ## Machine code -/

namespace X86.Cpu

/-- The processor after `n` instructions of `text`, if it gets so far by itself. -/
def after? (text : Text) : Nat → Cpu → Option Cpu
  | 0, c => some c
  | n + 1, c =>
    match c.step text with
    | .running c' => after? text n c'
    | _ => none

/-- A machine that is a processor and nothing else. -/
def alone (text : Text) (c : Cpu) : Action ⟨Empty, Empty.elim⟩ Cpu Unit :=
  match c.step text with
  | .running c' => .next c'
  | _ => .halt ()

variable {text : Text} {c c' : Cpu} {n : Nat}

theorem drives_alone : Drives (alone text) text id := by
  intro c c' i n hfetch hexecute
  have hstep : c.step text = .running c' := by
    rw [step, fetch?, hfetch]
    exact hexecute
  rw [id, alone, hstep]
  rfl

theorem after?_of_reaches {d : Device ⟨Empty, Empty.elim⟩ Unit}
    (h : Reaches (alone text) d n c () c' ()) : c.after? text n = some c' := by
  induction n generalizing c with
  | zero =>
    cases h
    rfl
  | succ n ih =>
    rw [Reaches, run, alone] at h
    rw [after?]
    cases hstep : c.step text with
    | running c₁ =>
      rw [hstep] at h
      exact ih h
    | systemCall c₁ =>
      rw [hstep] at h
      cases h
    | crashed reason =>
      rw [hstep] at h
      cases h

end X86.Cpu

namespace MachineCode

/-- Wherever `code` stands, a processor with `a` in the register of the pointer gets behind it, and
has `goal` there then. Memory and all other registers are as they were. The first instruction puts
`sum` into the register. -/
def Moves (code : List UInt8) (a sum goal : Nat) : Prop :=
  ∀ (base : UInt64) (bytes : Array UInt8) (before behind : List UInt8) (c : Cpu),
    bytes.toList = before ++ (code ++ behind) → before.length + code.length < 2 ^ 64 →
    c.ip = (Text.ofBytes base bytes).address before.length → (c.get .r12).toNat = a →
    (∃ c₁, c.after? (.ofBytes base bytes) 1 = some c₁ ∧ (c₁.get .r12).toNat = sum) ∧
    ∃ n c', c.after? (.ofBytes base bytes) n = some c' ∧
      c'.ip = (Text.ofBytes base bytes).address (before.length + code.length) ∧
      (c'.get .r12).toNat = goal ∧ c'.memory = c.memory ∧
      ∀ q : Reg, q ≠ .r12 → c'.get q = c.get q

theorem plain_blockCode_move (linkage : Linkage) (wrap : Wrap) (index : Nat) (d : Int32) (n : Nat) :
    Block.plain (blockCode linkage wrap index d (.move n)) = Block.move n.toUInt32 wrap := by
  cases wrap <;> rfl

variable {length a b : Nat} {wrap : Wrap}

theorem moves_move (ha : a < length) (hb : b < length)
    (hwrap : Wrap.ofTapeLength length = .ok wrap) :
    Moves (move b.toUInt32 wrap) a (a + b) ((a + b) % length) := by
  intro base bytes before behind c hbytes hsize hip hpointer
  have hle := Wrap.le_of_ofTapeLength hwrap
  have h12 : c.get .r12 = a.toUInt64 := by
    rw [← hpointer]
    exact UInt64.ofNat_toNat.symm
  -- the bytes are the code of a move, and so the text has its fragments
  have hcode : encodeAll (blockCode .freestanding wrap 0 0 (.move b)) = move b.toUInt32 wrap :=
    encodeAll_blockCode ..
  have hlength : codeSize (blockCode .freestanding wrap 0 0 (.move b)) =
      (move b.toUInt32 wrap).length := by rw [← hcode, length_encodeAll]
  rw [← hcode] at hbytes
  rw [← hlength] at hsize ⊢
  have hat := @Text.hasAt_plain base bytes before behind _ (fun _ => 0)
    (regular_blockCode .freestanding wrap 0 0 (.move b)) hbytes hsize
  rw [← Fragment.sizes_plain, plain_blockCode_move]
  rw [plain_blockCode_move] at hat
  constructor
  · have hfirst : (Text.ofBytes base bytes).HasAt (fun _ => 0) before.length
        (Block.plain [.alu .add .r12 b.toUInt32.toInt32]) := by
      cases wrap <;> exact ⟨hat.1, trivial⟩
    obtain ⟨c₁, hfollow, hsum⟩ := Native.follow_sum c hb hle ha h12
    obtain ⟨hreach, -⟩ := exists_follow (d := nofun) Cpu.drives_alone hfirst
      (by simp [Instr.IsStraight]) hip hfollow ()
    exact ⟨c₁, Cpu.after?_of_reaches hreach, hsum⟩
  · obtain ⟨n, c', hreach, hip', hmemory, hregs, hgoal⟩ :=
      Native.exists_moved (d := nofun) Cpu.drives_alone hb ha hwrap hat h12 hip ()
    exact ⟨n, c', Cpu.after?_of_reaches hreach, hip', hgoal, hmemory, hregs⟩

end MachineCode

namespace Assembler

/-- Straight code is put behind the code, and nothing else is changed. -/
theorem foldl_put_plain (asm : Assembler) (code : List Instr) :
    (Block.plain code).foldl put asm =
      { asm with code := asm.code.appendList (encodeAll code) } := by
  induction code generalizing asm with
  | nil => simp [Block.plain, encodeAll]
  | cons i rest ih =>
    have hbytes : (asm.code.appendList i.encode).appendList (encodeAll rest) =
        asm.code.appendList (encodeAll (i :: rest)) := Array.ext' (by simp [encodeAll_cons])
    rw [← hbytes]
    exact ih (asm.put (.instr i))

/-- What an assembler does when it is asked for a move. -/
theorem emitter_move (asm : Assembler) (b : Nat) (wrap : Wrap) :
    emitter.move b.toUInt32 wrap asm =
      { asm with code := asm.code.appendList (MachineCode.move b.toUInt32 wrap) } := by
  have hput := foldl_put_plain asm (MachineCode.blockCode asm.linkage wrap 0 0 (.move b))
  rw [MachineCode.plain_blockCode_move, MachineCode.encodeAll_blockCode] at hput
  exact hput

end Assembler

/-! ## Steps -/

/-- What a single step counts: one forward, or all cells but one. -/
def stepCount (length : Nat) (ch : Char) : Nat := (if ch = '>' then 1 else length - 1) % length

theorem stepCount_lt {length : Nat} (hpos : 0 < length) (ch : Char) :
    stepCount length ch < length := Nat.mod_lt _ hpos

namespace Source

/-- The count that a move by `n` gets when steps are joined to it one by one. -/
def joined (length n : Nat) (steps : List Char) : Nat :=
  steps.foldl (fun n ch => addMod n (stepCount length ch) length) n

/-- `joined` with every step checked. -/
def joined? (length n : Nat) (steps : List Char) : Option Nat :=
  steps.foldlM (fun n ch => addMod? n (stepCount length ch) length) n

variable {length n : Nat}

theorem joined_lt (hn : n < length) (steps : List Char) : joined length n steps < length := by
  induction steps generalizing n with
  | nil => exact hn
  | cons ch rest ih => exact ih (addMod_lt hn (stepCount_lt (Nat.zero_lt_of_lt hn) ch))

theorem joined?_eq (hw : length < wordLimit) (hn : n < length) (steps : List Char) :
    joined? length n steps = some (joined length n steps) := by
  induction steps generalizing n with
  | nil => rfl
  | cons ch rest ih =>
    have hstep := stepCount_lt (Nat.zero_lt_of_lt hn) ch
    rw [joined?, List.foldlM_cons, addMod?_eq hn hstep hw]
    exact ih (addMod_lt hn hstep)

theorem stepCount_eq_net (hpos : 0 < length) {ch : Char} (h : ch = '>' ∨ ch = '<') :
    stepCount length ch = net '>' '<' length [ch] := by
  rcases h with rfl | rfl
  · exact (net_forward (by decide) hpos).symm
  · exact (net_back (by decide) hpos).symm

/-- Steps that are joined one by one come to their net sum. -/
theorem joined_net (hpos : 0 < length) {steps : List Char}
    (hsteps : ∀ ch ∈ steps, ch = '>' ∨ ch = '<') (done : List Char) :
    joined length (net '>' '<' length done) steps = net '>' '<' length (done ++ steps) := by
  induction steps generalizing done with
  | nil => rw [List.append_nil, joined, List.foldl_nil]
  | cons ch rest ih =>
    have hrest := ih (fun ch' h => hsteps ch' (List.mem_cons_of_mem ch h)) (done ++ [ch])
    rw [← addMod_net hpos, ← stepCount_eq_net hpos (hsteps ch List.mem_cons_self),
      List.append_assoc] at hrest
    exact hrest

theorem joined_eq_net (hpos : 0 < length) {steps : List Char}
    (hsteps : ∀ ch ∈ steps, ch = '>' ∨ ch = '<') :
    joined length 0 steps = net '>' '<' length steps := by
  have hzero : net '>' '<' length [] = 0 := by simp [net]
  have hjoined := joined_net hpos hsteps []
  rw [hzero] at hjoined
  exact hjoined

/-- Behind anything but a move steps are one move by their joined count. -/
theorem foldl_push_joined (hpos : 0 < length) {o : Optimisations} (ho : o.joinRuns = true)
    {steps : List Char} (hsteps : ∀ ch ∈ steps, ch = '>' ∨ ch = '<') (hne : steps ≠ [])
    {ops : List Op} (hops : ∀ m, ops.head? ≠ some (.move m)) :
    (steps.map (commandOp length)).foldl (push length o) ops =
      .move (joined length 0 steps) :: settle ops := by
  rw [joined_eq_net hpos hsteps]
  have hmovement : ∀ ch ∈ steps, isMovement ch := by
    intro ch hch
    rcases hsteps ch hch with rfl | rfl <;> rfl
  obtain ⟨ch, rest, rfl⟩ := List.exists_cons_of_ne_nil hne
  have hop := blockOp_of_isMovement (hmovement ch List.mem_cons_self) length rest
  have hfree : o.joinRuns = true → ∀ last ∈ ops.head?,
      join? length last (blockOp length (ch :: rest)) = none := by
    intro _ last hlast
    rw [hop]
    apply join?_move
    rintro m rfl
    exact hops m hlast
  rw [foldl_push_block hpos (.movements ho hmovement) hfree, hop, place_move]

end Source

namespace Tape

/-- Go single steps. -/
def walk (t : Tape) (steps : List Char) : Tape :=
  steps.foldl (fun t ch => t.advance (stepCount t.length ch)) t

/-- `walk` with every step checked. -/
def walk? (t : Tape) (steps : List Char) : Option Tape :=
  steps.foldlM (fun t ch => t.advance? (stepCount t.length ch)) t

theorem length_pos (t : Tape) : 0 < t.length := Nat.zero_lt_of_lt t.pointer_lt

theorem walk?_eq {t : Tape} (hw : t.length < wordLimit) (steps : List Char) :
    t.walk? steps = some (t.walk steps) := by
  induction steps generalizing t with
  | nil => rfl
  | cons ch rest ih =>
    have hstep := stepCount_lt t.length_pos ch
    rw [walk?, List.foldlM_cons, advance?_eq hstep hw]
    exact ih ((t.length_advance _).symm ▸ hw)

/-- A move and the single steps behind it are one move. -/
theorem walk_advance (t : Tape) {n : Nat} (hn : n < t.length) (steps : List Char) :
    (t.advance n).walk steps = t.advance (joined t.length n steps) := by
  induction steps generalizing n with
  | nil => rfl
  | cons ch rest ih =>
    have hstep := stepCount_lt t.length_pos ch
    have hround : (n + stepCount t.length ch) % t.length =
        addMod n (stepCount t.length ch) t.length % t.length := by
      rw [addMod_eq hn hstep, Nat.mod_mod]
    rw [walk, List.foldl_cons, t.length_advance, t.advance_advance, t.advance_congr hround]
    exact ih (addMod_lt hn hstep)

end Tape

namespace Scan

/-- Steps are read as one move, comments between them or not. -/
theorem exists_steps_joined {s : Scan} {text : List Char}
    (hsteps : ∀ ch ∈ commands text, ch = '>' ∨ ch = '<') (hne : commands text ≠ [])
    (hpos : 0 < s.fuser.tapeLength) (ho : s.fuser.optimisations.joinRuns = true)
    (hops : ∀ m, s.fuser.ops.head? ≠ some (.move m)) (limit index : Nat) :
    ∃ s', s.steps limit index text = .ok s' ∧
      s'.fuser.ops =
        .move (joined s.fuser.tapeLength 0 (commands text)) :: settle s.fuser.ops := by
  have hnone : brackets text = [] := by
    rw [← brackets_commands, brackets, List.filterMap_eq_nil_iff]
    intro ch hch
    rcases hsteps ch hch with rfl | rfl <;> rfl
  obtain ⟨s', hs'⟩ := @exists_steps_of_none limit text (List.filterMap_eq_nil_iff.mp hnone) s index
  exact ⟨s', hs', (ops_steps hs' hpos).trans (foldl_push_joined hpos ho hsteps hne hops)⟩

end Scan

/-! ## Agreement -/

/-- All ways round a tape of `length` cells lead to the same cell. -/
structure WaysAgree (length : Nat) : Prop where
  /-- The sum of two counts is found without a number that does not fit in a word. -/
  sum : ∀ a < length, ∀ b < length,
    addMod? a b length = some (addMod a b length) ∧ addMod a b length = (a + b) % length
  /-- So is the cell that a move leads to, and nothing is changed but the pointer. -/
  tape : ∀ t : Tape, t.length = length → ∀ b < length,
    t.advance? b = some (t.advance b) ∧ (t.advance b).pointer = (t.pointer + b) % length ∧
      (t.advance b).cells = t.cells
  /-- If there is machine code for the length, an assembler writes code for each move that leads to
  the same cell. -/
  code : length ≤ maxTapeLength → ∃ wrap, Wrap.ofTapeLength length = .ok wrap ∧ ∀ b < length,
    (∀ asm : Assembler, Assembler.emitter.move b.toUInt32 wrap asm =
      { asm with code := asm.code.appendList (MachineCode.move b.toUInt32 wrap) }) ∧
    ∀ a < length,
      MachineCode.Moves (MachineCode.move b.toUInt32 wrap) a (a + b) ((a + b) % length)
  /-- Single steps are joined into their net sum without a number that does not fit in a word. -/
  count : ∀ steps, (∀ ch ∈ steps, ch = '>' ∨ ch = '<') →
    joined? length 0 steps = some (joined length 0 steps) ∧ joined length 0 steps < length ∧
      joined length 0 steps = net '>' '<' length steps
  /-- A text of steps is read as a move by that count. -/
  read : ∀ (s : Scan) (limit index : Nat) (text : List Char), s.fuser.tapeLength = length →
    s.fuser.optimisations.joinRuns = true → (∀ m, s.fuser.ops.head? ≠ some (.move m)) →
    (∀ ch ∈ commands text, ch = '>' ∨ ch = '<') → commands text ≠ [] →
    ∃ s', s.steps limit index text = .ok s' ∧
      s'.fuser.ops = .move (joined length 0 (commands text)) :: settle s.fuser.ops
  /-- That move ends where the single steps end. -/
  walk : ∀ t : Tape, t.length = length → ∀ steps,
    t.walk? steps = some (t.advance (joined length 0 steps))

/-- Counts are added up round the tape in the same way everywhere, for all lengths that fit in a
machine word. -/
theorem ways_agree {length : Nat} (hpos : 0 < length) (hw : length < wordLimit) :
    WaysAgree length where
  sum a ha b hb := ⟨addMod?_eq ha hb hw, addMod_eq ha hb⟩
  tape t ht b hb := by
    subst ht
    exact ⟨Tape.advance?_eq hb hw, t.pointer_advance b, t.cells_advance b⟩
  code hle := by
    obtain ⟨wrap, hwrap⟩ := Wrap.exists_ofTapeLength hle
    refine ⟨wrap, hwrap, fun b hb => ⟨fun asm => asm.emitter_move b wrap, fun a ha => ?_⟩⟩
    exact MachineCode.moves_move ha hb hwrap
  count steps hsteps :=
    ⟨joined?_eq hw hpos steps, joined_lt hpos steps, joined_eq_net hpos hsteps⟩
  read s limit index text hlength ho hops hsteps hne := by
    subst hlength
    exact Scan.exists_steps_joined hsteps hne hpos ho hops limit index
  walk t ht steps := by
    subst ht
    have hwalk := t.walk_advance hpos steps
    rw [t.advance_zero] at hwalk
    rw [Tape.walk?_eq hw, hwalk]

/-- The greatest length that there is machine code for. -/
theorem ways_agree_greatest : 0 < maxTapeLength ∧ maxTapeLength < wordLimit ∧
    WaysAgree maxTapeLength := by
  have hpos : 0 < maxTapeLength := by decide
  have hw : maxTapeLength < wordLimit := by decide
  exact ⟨hpos, hw, ways_agree hpos hw⟩

end TapeLang
