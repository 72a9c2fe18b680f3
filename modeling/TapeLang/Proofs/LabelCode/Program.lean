import TapeLang.Proofs.LabelCode.Listing
import TapeLang.Proofs.LabelCode.Machine
import TapeLang.Proofs.Tree.Interpreter
import TapeLang.Proofs.Tree.LabelCode
import TapeLang.Proofs.Tree.Parser
import TapeLang.Stream.Cursor

/-!
# The label code of a program

What lowering makes of a program that was read: each loop gets two labels, bound once each; reads
and writes carry their own indices; and run as it stands, the code does what the interpreter does.

* `Lowering.fresh_steps`: the labels that lowering creates.
* `Tree.boundLabels_operations`, `Tree.namedLabels_operations`, `Tree.transfers_operations`: labels
  and indices in the operations of a tree.
* `LabelCode.laid`: a tree is laid out between two places of the code.
* `LabelCode.renders_lower`: a whole program.
-/

namespace TapeLang

/-! ## Labels and indices -/

namespace Lowering

/-- The state behind the instructions from `index` on. -/
def State.steps (wrap : Wrap) (s : State) (index : Nat) : List Op → State
  | [] => s
  | op :: rest => (s.step wrap index op).steps wrap (index + 1) rest

/-- Each loop makes two labels. -/
theorem fresh_steps (wrap : Wrap) (s : State) (index : Nat) (ops : List Op) :
    (s.steps wrap index ops).fresh = s.fresh + 2 * ops.count .loopStart := by
  induction ops generalizing s index with
  | nil => rfl
  | cons op rest ih =>
    have hop : (s.step wrap index op).fresh = s.fresh + 2 * [op].count .loopStart := by
      cases op with
      | loopEnd => cases hl : s.loops <;> simp [State.step, hl, State.emit]
      | _ => rfl
    rw [State.steps, ih, hop, Nat.add_assoc, ← Nat.mul_add, ← List.count_append]
    rfl

end Lowering

namespace LabelCode

/-- A read or a write, with the index it carries. -/
def transfer? : Operation → Option (Op × Nat)
  | .read index => some (.read, index.toNat)
  | .write index => some (.write, index.toNat)
  | _ => none

/-- The reads and writes from `index` on, each with its own index. -/
def transfers (index : Nat) (ops : List Op) : List (Op × Nat) :=
  (ops.zipIdx index).filter fun i => i.1 = .read ∨ i.1 = .write

theorem transfers_cons (index : Nat) (op : Op) (ops : List Op) :
    transfers index (op :: ops) =
      (if op = .read ∨ op = .write then [(op, index)] else []) ++ transfers (index + 1) ops := by
  rw [transfers, List.zipIdx_cons, List.filter_cons]
  split <;> simp_all [transfers]

theorem transfers_append (index : Nat) (ops more : List Op) :
    transfers index (ops ++ more) =
      transfers index ops ++ transfers (index + ops.length) more := by
  rw [transfers, List.zipIdx_append, List.filter_append]
  rfl

end LabelCode

namespace Tree

open LabelCode

variable {wrap : Wrap}

theorem count_loopStart (t : Tree) : (t.flatten.map (·.op)).count .loopStart = t.loops := by
  induction t with
  | nil => rfl
  | command c p rest ih =>
    rw [flatten, List.map_cons, List.count_cons_of_ne c.op_ne_loopStart, ih, loops]
  | loop o c body rest ihb ihr =>
    simp only [flatten, List.map_cons, List.map_append, List.count_cons_self, List.count_append,
      ihb, loops]
    rw [List.count_cons_of_ne (by decide), ihr]

theorem boundLabel?_operation (c : Command) (index : Nat) :
    boundLabel? (c.operation wrap index) = none := by cases c <;> rfl

theorem namedLabel?_operation (c : Command) (index : Nat) :
    namedLabel? (c.operation wrap index) = none := by cases c <;> rfl

/-- The labels of a tree are bound once each. -/
theorem boundLabels_operations (t : Tree) (index fresh : Nat) :
    (boundLabels (t.operations wrap index fresh)).Perm (List.range' fresh (2 * t.loops)) := by
  induction t generalizing index fresh with
  | nil => exact .nil
  | command c p rest ih =>
    rw [operations, boundLabels, List.filterMap_cons_none (boundLabel?_operation c index)]
    exact ih _ _
  | loop o c body rest ihb ihr =>
    have hrange : List.range' fresh (2 * (loop o c body rest).loops) =
        fresh :: (fresh + 1) :: (List.range' (fresh + 2) (2 * body.loops) ++
          List.range' (fresh + 2 + 2 * body.loops) (2 * rest.loops)) := by
      have hloops : 2 * (loop o c body rest).loops = 2 * body.loops + 2 * rest.loops + 1 + 1 := by
        rw [loops]
        omega
      rw [hloops, List.range'_succ, List.range'_succ, List.range'_append_1]
    rw [hrange]
    simp only [operations, boundLabels, List.filterMap_cons, List.filterMap_append, boundLabel?]
    exact (List.perm_middle.trans (((ihb _ _).append (ihr _ _)).cons (fresh + 1))).cons fresh

theorem namedLabels_operations (t : Tree) (index fresh : Nat) :
    ∀ l ∈ namedLabels (t.operations wrap index fresh),
      l ∈ boundLabels (t.operations wrap index fresh) := by
  induction t generalizing index fresh with
  | nil => exact nofun
  | command c p rest ih =>
    simp only [operations, namedLabels, boundLabels, List.filterMap_cons, boundLabel?_operation,
      namedLabel?_operation]
    exact ih _ _
  | loop o c body rest ihb ihr =>
    intro l hl
    simp only [operations, namedLabels, List.filterMap_cons, List.filterMap_append, namedLabel?,
      List.mem_cons, List.mem_append] at hl
    simp only [operations, boundLabels, List.filterMap_cons, List.filterMap_append, boundLabel?,
      List.mem_cons, List.mem_append]
    rcases hl with rfl | hl | rfl | hl
    · exact .inr (.inr (.inl rfl))
    · exact .inr (.inl (ihb _ _ l hl))
    · exact .inl rfl
    · exact .inr (.inr (.inr (ihr _ _ l hl)))

/-- Reads and writes keep their order and carry their own indices. -/
theorem transfers_operations (t : Tree) {index : Nat} (fresh : Nat)
    (h : index + t.flatten.length ≤ 2 ^ 32) :
    (t.operations wrap index fresh).filterMap transfer? =
      transfers index (t.flatten.map (·.op)) := by
  induction t generalizing index fresh with
  | nil => rfl
  | command c p rest ih =>
    rw [flatten, List.length_cons] at h
    have hindex : index.toUInt32.toNat = index := UInt32.toNat_ofNat_of_lt (by
      show index < 2 ^ 32
      omega)
    have hrest := ih fresh (show index + 1 + rest.flatten.length ≤ 2 ^ 32 by omega)
    rw [operations, flatten, List.map_cons, transfers_cons, ← hrest]
    cases c <;> simp [Command.operation, Command.op, transfer?, hindex, List.filterMap_cons]
  | loop o c body rest ihb ihr =>
    have hlen : (loop o c body rest).flatten.length =
        body.flatten.length + rest.flatten.length + 2 := by
      simp [flatten]
      omega
    rw [hlen] at h
    have hbody := ihb (fresh + 2) (show index + 1 + body.flatten.length ≤ 2 ^ 32 by omega)
    have hrest := ihr (fresh + 2 + 2 * body.loops)
      (show index + 1 + body.flatten.length + 1 + rest.flatten.length ≤ 2 ^ 32 by omega)
    simp only [operations, flatten, List.map_cons, List.map_append, List.filterMap_cons,
      List.filterMap_append, transfer?, hbody, hrest]
    rw [transfers_cons, transfers_append, transfers_cons]
    simp

end Tree

/-! ## What the machine does -/

namespace LabelCode

variable {σ : Type} {length : Nat} {wrap : Wrap} {code rest : List Operation}
  {position? : UInt32 → Option Position} {d : Device byteStream σ} {canPeek : Bool}

/-- At these operations, on a tape of `length` cells. -/
def At (canPeek : Bool) (length : Nat) (ahead : List Operation) (tape : Tape) (s : State) : Prop :=
  s = .at canPeek tape ahead ∧ tape.length = length

def Failed (e : RunError) (tape : Tape) (s : State) : Prop :=
  s.phase = .closed (.failed e) ∧ s.tape = tape

/-- A move gets where the tape gets by itself. -/
theorem State.move_eq (hw : Wrap.ofTapeLength length = .ok wrap) {tape : Tape}
    (hl : tape.length = length) {n : Nat} (hn : n < length) :
    (State.at canPeek tape rest).move n.toUInt32.toNat wrap =
      .at canPeek (tape.advance n) rest := by
  have hmax := Wrap.le_of_ofTapeLength hw
  have hcount : n.toUInt32.toNat = n := UInt32.toNat_ofNat_of_lt (by
    unfold maxTapeLength at hmax
    show n < 2 ^ 32
    omega)
  have hpointer : wrap.apply tape.pointer n = (tape.advance n).pointer := by
    rw [Wrap.apply_eq hw (hl ▸ tape.pointer_lt) hn, Tape.pointer_advance, hl]
  have hlt : wrap.apply tape.pointer n < tape.cells.size := by
    rw [hpointer, ← tape.cells_advance n]
    exact (tape.advance n).pointer_lt
  have htape : (⟨tape.cells, wrap.apply tape.pointer n, hlt⟩ : Tape) = tape.advance n :=
    Tape.ext_cells (tape.cells_advance n).symm hpointer
  rw [hcount]
  exact (dif_pos hlt).trans (by rw [← htape]; rfl)

theorem follows_command (hw : Wrap.ofTapeLength length = .ok wrap) {c : Command}
    (hc : c.Reduced length) {index : Nat} {position : Option Position}
    (hp : position? index.toUInt32 = position) (rest : List Operation) (bound : Nat) (tape : Tape)
    (s : State) (world : σ) (hs : At canPeek length (c.operation wrap index :: rest) tape s) :
    Follows (step code position?) d Failed bound (At canPeek length rest) s world
      (c.exec d canPeek bound position tape world) := by
  obtain ⟨rfl, hl⟩ := hs
  have hop : c.operation wrap index ≠ .epilogue := by cases c <;> exact nofun
  have silent {t : Tape} (ht : t.length = length)
      (he : (State.at canPeek tape rest).execute code position? (c.operation wrap index) =
        .at canPeek t rest) :
      Follows (step code position?) d Failed bound (At canPeek length rest)
        (.at canPeek tape (c.operation wrap index :: rest)) world (.through t world) :=
    ⟨1, _, reaches_execute _ hop he world, rfl, ht⟩
  have transfer (t : Transfer) (p : Option Position) (hread : t.isRead = true → p = position)
      (he : (State.at canPeek tape rest).execute code position? (c.operation wrap index) =
        { State.at canPeek tape rest with phase := .transferring p t }) :
      Follows (step code position?) d Failed bound (At canPeek length rest)
        (.at canPeek tape (c.operation wrap index :: rest)) world
        (t.perform d canPeek bound position tape world) := by
    refine Follows.mono (.after (reaches_execute _ hop he world) (Follows.transfer
      ((State.at canPeek tape rest).afterTransfer p) (fun t' ht' => ?_)
      (fun bound outcome world _ => ?_) bound rfl world)) (Nat.le_add_left _ _)
    · have hresume (reply : t'.request.Reply) :
          t'.resume canPeek p reply = t'.resume canPeek position reply := by
        cases hr : t.isRead with
        | true => rw [hread hr]
        | false => exact Transfer.resume_position (ht'.trans hr) canPeek p position reply
      simp only [← hresume]
      rfl
    · cases outcome with
      | received byte => exact .here ⟨rfl, hl⟩
      | sent => exact .here ⟨rfl, hl⟩
      | failed e => exact ⟨0, _, .refl _ world, rfl, rfl⟩
  cases c with
  | move n => exact silent ((tape.length_advance n).trans hl) (State.move_eq hw hl hc)
  | add n => exact silent hl rfl
  | reset => exact silent hl rfl
  | read => exact transfer .prompt _ (fun _ => hp) rfl
  | write => exact transfer (.offer tape.get) none nofun rfl

/-- A loop between its two labels. -/
theorem tests_loop {top bottom : Label} {inside out : List Operation}
    (ht : place? bottom code = some (.bind bottom :: out)) :
    Tests (step code position?) d
      (At canPeek length (.bind top :: .branchIfZero bottom :: inside)) (At canPeek length inside)
      (At canPeek length out) where
  leave tape s world hs hz := by
    obtain ⟨rfl, hl⟩ := hs
    have hbind (l : Label) (rest : List Operation) :
        Reaches (step code position?) d 1 (.at canPeek tape (.bind l :: rest)) world
          (.at canPeek tape rest) world := reaches_execute (.bind l) nofun rfl world
    have hbranch := @reaches_branch σ code inside position? d tape canPeek bottom _ ht world
    rw [if_pos hz] at hbranch
    exact ⟨_, _, ((hbind _ _).trans hbranch).trans (hbind _ _), rfl, hl⟩
  enter tape s world hs hz := by
    obtain ⟨rfl, hl⟩ := hs
    have hbranch := @reaches_branch σ code inside position? d tape canPeek bottom _ ht world
    rw [if_neg hz] at hbranch
    exact ⟨1, _, (reaches_execute (.bind top) nofun rfl world).trans hbranch, rfl, hl⟩

/-- The operations of a tree stand in the code between `before` and `rest`. -/
theorem laid (d : Device byteStream σ) (canPeek : Bool)
    (hw : Wrap.ofTapeLength length = .ok wrap) (hn : (boundLabels code).Nodup) {p : Program}
    (hpos : ∀ i : Nat, i < p.size → position? i.toUInt32 = p.position? i) (t : Tree)
    (hred : t.Reduced length) {index fresh : Nat} (hp : p.HasAt index t.flatten)
    {before rest : List Operation}
    (hcode : code = before ++ (t.operations wrap index fresh ++ rest)) :
    Laid (step code position?) d Failed d canPeek (At canPeek length) t
      (t.operations wrap index fresh ++ rest) rest := by
  induction t generalizing index fresh before rest with
  | nil => exact .nil _
  | command c position more ih =>
    have hposition : position? index.toUInt32 = position := by
      have hindex := hp.getElem?
      rw [hpos index (Array.getElem?_eq_some_iff.mp hindex).1, hp.position?]
    refine .command (follows_command hw hred.1 hposition _) (@ih hred.2 _ _ hp.tail
      (before ++ [c.operation wrap index]) _ ?_)
    simpa [Tree.operations] using hcode
  | loop opening closing body more ihb ihr =>
    obtain ⟨inside, hinside⟩ : ∃ xs, xs = body.operations wrap (index + 1) (fresh + 2) := ⟨_, rfl⟩
    obtain ⟨behind, hbehind⟩ : ∃ xs, xs = more.operations wrap
      (index + 1 + body.flatten.length + 1) (fresh + 2 + 2 * body.loops) := ⟨_, rfl⟩
    have hops : (Tree.loop opening closing body more).operations wrap index fresh ++ rest =
        .bind fresh :: .branchIfZero (fresh + 1) :: (inside ++ .jump fresh ::
          .bind (fresh + 1) :: (behind ++ rest)) := by
      simp [Tree.operations, hinside, hbehind]
    rw [hops] at hcode ⊢
    have htop := place?_eq hn hcode
    have hbottom := @place?_eq code (before ++ .bind fresh :: .branchIfZero (fresh + 1) ::
      (inside ++ [.jump fresh])) (behind ++ rest) (fresh + 1) hn (by simp [hcode])
    have hbody := @ihb hred.1 (index + 1) (fresh + 2) hp.tail.left
      (before ++ [.bind fresh, .branchIfZero (fresh + 1)])
      (.jump fresh :: .bind (fresh + 1) :: (behind ++ rest)) (by simp [hcode, hinside])
    have hmore := @ihr hred.2 _ (fresh + 2 + 2 * body.loops) hp.tail.right.tail
      (before ++ .bind fresh :: .branchIfZero (fresh + 1) ::
        (inside ++ [.jump fresh, .bind (fresh + 1)])) rest (by simp [hcode, hbehind])
    rw [← hinside] at hbody
    rw [← hbehind] at hmore
    refine .loop (fun _ _ hs => hs) (tests_loop hbottom) hbody (fun tape s world hs => ?_) hmore
    obtain ⟨rfl, hl⟩ := hs
    exact ⟨1, _, reaches_jump htop world, rfl, hl⟩

/-! ## Whole runs -/

theorem ends_at_epilogue {tape : Tape} {s : State} (hs : At canPeek length [.epilogue] tape s)
    (world : σ) :
    (course (step code position?) d s world).Ends (Tree.flushed tape (d .flush world).1)
      (d .flush world).2 := by
  obtain ⟨rfl, -⟩ := hs
  refine ends_of_reaches (.ask (show step code position? (.at canPeek tape [.epilogue]) =
    .ask .flush (State.at canPeek tape [.epilogue]).finished from rfl)) ?_
  cases (d .flush world).1 <;> rfl

/-- The label code of a program gets wherever the tree of the program gets. -/
theorem tracks {p : Program} {t : Tree} (ht : t.flatten = p.instructions.toList)
    (hred : t.Reduced p.tapeLength) (hw : Wrap.ofTapeLength p.tapeLength = .ok wrap)
    (hcode : code = .prologue :: (t.operations wrap 0 0 ++ [.epilogue]))
    (hn : (boundLabels code).Nodup)
    (hpos : ∀ i : Nat, i < p.size → position? i.toUInt32 = p.position? i) {tape : Tape}
    (hl : tape.length = p.tapeLength) (d : Device byteStream σ) (world : σ) :
    (course (step code position?) d (start code tape) world).Tracks (t.course d tape world) := by
  have hopen : step code position? (start code tape) = .ask .canPeek fun canPeek =>
      .at canPeek tape (t.operations wrap 0 0 ++ [.epilogue]) := by
    simp only [step, start, hcode]
    rfl
  refine tracks_of_follows (fun _ => Failed) (fun canPeek => At canPeek p.tapeLength [.epilogue])
    hopen (fun canPeek bound world => ?_) (fun _ tape s world hs => ends_at_epilogue hs world)
    (fun _ e tape s world hf => ?_) world
  · exact (@laid σ _ wrap code position? d canPeek hw hn p hpos t hred 0 0 (.of_eq ht) [.prologue] _
      hcode).follows bound tape _ world ⟨rfl, hl⟩
  · obtain ⟨hp, rfl⟩ := hf
    refine ends_of_reaches (.refl s world) ?_
    simp only [step, hp]

/-- `code` stands for the program `p`, with so many labels created for it. Its listing says the same
as the code itself. -/
structure Renders (p : Program) (created : Nat) (code : List Operation) : Prop where
  bound : (boundLabels code).Perm (List.range created)
  named : ∀ l ∈ namedLabels code, l ∈ boundLabels code
  transfers : code.filterMap transfer? = transfers 0 p.ops
  lines : ∀ code' : List Operation, code'.map Operation.line = code.map Operation.line →
    code' = code
  agrees : ∀ (σ : Type) (d : Device byteStream σ) (tape : Tape) (world : σ),
    tape.length = p.tapeLength →
    (course (step code fun index => p.position? index.toNat) d.logged (start code tape)
      (world, #[])).Agrees
      (course (Interpreter.step p) d.logged (Interpreter.start tape) (world, #[]))

theorem renders_operations {p : Program} {t : Tree} (ht : t.flatten = p.instructions.toList)
    (hred : t.Reduced p.tapeLength) (hw : Wrap.ofTapeLength p.tapeLength = .ok wrap)
    (hm : 8 * p.maxDepth ≤ sizeLimit) (hsize : p.size ≤ maxInstructions) :
    Renders p (2 * t.loops) (.prologue :: (t.operations wrap 0 0 ++ [.epilogue])) := by
  obtain ⟨code, hcode⟩ : ∃ code, code = Operation.prologue :: (t.operations wrap 0 0 ++
    [.epilogue]) := ⟨_, rfl⟩
  have hlen : t.flatten.length = p.size := by rw [ht, Array.length_toList, Program.size]
  have hbound : boundLabels code = boundLabels (t.operations wrap 0 0) := by
    simp [hcode, boundLabels, boundLabel?, List.filterMap_cons]
  have hnamed : namedLabels code = namedLabels (t.operations wrap 0 0) := by
    simp [hcode, namedLabels, namedLabel?, List.filterMap_cons]
  have hperm := @Tree.boundLabels_operations wrap t 0 0
  have htransfers := @Tree.transfers_operations wrap t 0 0 (by
    rw [hlen]
    unfold maxInstructions at hsize
    omega)
  unfold maxInstructions at hsize
  rw [← List.range_eq_range', ← hbound] at hperm
  rw [← hcode]
  refine ⟨hperm, ?_, ?_, fun code' h => (List.map_inj_right fun _ _ =>
    Operation.line_injective).mp h, fun σ d tape world hl => ?_⟩
  · rw [hnamed, hbound]
    exact t.namedLabels_operations 0 0
  · rw [Program.ops, ← ht, ← htransfers, hcode]
    simp [transfer?, List.filterMap_cons]
  · have hpos (i : Nat) (hi : i < p.size) : p.position? i.toUInt32.toNat = p.position? i := by
      rw [show i.toUInt32.toNat = i from UInt32.toNat_ofNat_of_lt (by show i < 2 ^ 32; omega)]
    have hmachine := @tracks _ wrap code (fun index => p.position? index.toNat) p t ht hred hw
      hcode (hperm.nodup_iff.mpr List.nodup_range) hpos tape hl d.logged (world, #[])
    have hinterpreter := Interpreter.tracks ht hm hl d.logged (world, #[])
    exact (hmachine.agrees (course_stays _ _ _ _) (course_grows _ _ _ _)).trans
      (hinterpreter.agrees (course_stays _ _ _ _) (course_grows _ _ _ _)).symm

/-- A program is lowered to code that stands for it, unless its instructions cannot be numbered in
32 bits. -/
theorem renders_lower {source : String} {c : Config} {p : Program} (h : parse source c = .ok p)
    (hl : p.tapeLength ≤ maxTapeLength) (hm : 8 * p.maxDepth ≤ sizeLimit) :
    (maxInstructions < p.size ∧ p.lower = ⟨#[], some (.programTooLarge p.size)⟩) ∨
    ∃ wrap, Wrap.ofTapeLength p.tapeLength = .ok wrap ∧ p.lower.error = none ∧
      Renders p (Lowering.start.steps wrap 0 p.ops).fresh p.lower.operations.toList := by
  obtain ⟨t, ht, hsimple⟩ := exists_tree h
  obtain ⟨wrap, hw⟩ := Wrap.exists_ofTapeLength hl
  have hred : t.Reduced p.tapeLength := tapeLength_of_parse h ▸ hsimple.reduced
  have hlen : t.flatten.length = p.size := by rw [ht, Array.length_toList, Program.size]
  by_cases hsize : p.size ≤ maxInstructions
  · refine .inr ⟨wrap, hw, ?_⟩
    rw [Program.lower_eq ht hw (hlen ▸ hsize), Lowering.fresh_steps, Program.ops, ← ht,
      t.count_loopStart]
    refine ⟨rfl, ?_⟩
    simpa [Lowering.start] using renders_operations ht hred hw hm hsize
  · have hsize := Nat.lt_of_not_le hsize
    refine .inl ⟨hsize, ?_⟩
    have hops : p.ops.length = p.size := by simp [Program.ops, Program.size]
    rw [Program.lower, lower, hw]
    simp only [hops, if_pos hsize]

theorem renders_lower_echo :
    ∃ p : Program, parse ",[.,]" .standard = .ok p ∧ p.lower.error = none ∧
      Renders p 2 p.lower.operations.toList := by
  obtain ⟨p, hp, hsize, hcount⟩ : ∃ p, parse ",[.,]" .standard = .ok p ∧
      p.size ≤ maxInstructions ∧ p.ops.count .loopStart = 1 :=
    ⟨_, rfl, by decide +kernel, by decide +kernel⟩
  have hlength : p.tapeLength = 30000 := tapeLength_of_parse hp
  have hdepth : p.maxDepth = 256 := maxDepth_of_parse hp
  rcases renders_lower hp (by rw [hlength]; decide) (by rw [hdepth]; decide) with
    ⟨hlarge, -⟩ | ⟨wrap, -, herror, hrenders⟩
  · exact absurd hsize (Nat.not_le.mpr hlarge)
  · rw [Lowering.fresh_steps, hcount] at hrenders
    exact ⟨p, hp, herror, hrenders⟩

end LabelCode

end TapeLang
