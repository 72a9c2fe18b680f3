import TapeLang.Proofs.Tree.LabelCode
import TapeLang.Proofs.Tree.Simulation

/-!
# Label code as a machine

Label code can be run as it stands, on a tape and beside streams. The machine keeps the operations
that are still ahead; a jump looks its label up from the beginning of the code. What would be a
fault of the code itself ends in a crash: a label that is bound nowhere, code that comes to no
epilogue, or a move that leaves the tape.

* `Wrap.apply`: where a move leads.
* `LabelCode.step`: the machine.
* `LabelCode.reaches_jump`, `LabelCode.reaches_branch`: where it goes at a label.
-/

namespace TapeLang

/-- The cell `count` cells behind the cell `pointer`, brought back into range at most once. -/
def Wrap.apply (pointer count : Nat) : Wrap → Nat
  | .mask bits => (pointer + count) &&& bits.toNat
  | .length cells =>
    if cells.toNat ≤ pointer + count then pointer + count - cells.toNat else pointer + count

theorem Wrap.apply_eq {length : Nat} {wrap : Wrap} (hw : ofTapeLength length = .ok wrap)
    {pointer count : Nat} (hp : pointer < length) (hc : count < length) :
    wrap.apply pointer count = (pointer + count) % length := by
  have hsize : UInt32.size = 2 ^ 32 := rfl
  obtain ⟨hl, ⟨hpow, rfl⟩ | ⟨-, rfl⟩⟩ := ofTapeLength_eq_ok.mp hw
  all_goals unfold maxTapeLength at hl
  · have hbits : (length - 1).toUInt32.toNat = 2 ^ length.log2 - 1 := by
      rw [hpow]
      exact UInt32.toNat_ofNat_of_lt (by omega)
    rw [apply, hbits, Nat.and_two_pow_sub_one_eq_mod, hpow]
  · have hcells : length.toUInt32.toNat = length := UInt32.toNat_ofNat_of_lt (by omega)
    rw [apply, hcells]
    split
    case isTrue h => rw [Nat.mod_eq_sub_mod h, Nat.mod_eq_of_lt (by omega)]
    case isFalse h => rw [Nat.mod_eq_of_lt (by omega)]

namespace LabelCode

/-- The code from the first place on where `l` is bound. -/
def place? (l : Label) : List Operation → Option (List Operation)
  | [] => none
  | op :: rest => if op = .bind l then some (op :: rest) else place? l rest

inductive Phase where
  | opening
  | running
  /-- In the middle of a read for the instruction at `position`, or of a write. -/
  | transferring (position : Option Position) (stage : Transfer)
  | closed (verdict : Verdict)
deriving DecidableEq

structure State where
  phase : Phase
  tape : Tape
  /-- The operations from the current one on. -/
  ahead : List Operation
  canPeek : Bool
deriving DecidableEq

def start (code : List Operation) (tape : Tape) : State := ⟨.opening, tape, code, false⟩

namespace State

def close (s : State) (v : Verdict) : State := { s with phase := .closed v }

/-- There is nothing here that could be carried out. -/
def lost (s : State) : State := s.close (.crashed (.badInstruction 0))

def onTape (s : State) (f : Tape → Tape) : State := { s with tape := f s.tape }

def jump (code : List Operation) (s : State) (l : Label) : State :=
  match place? l code with
  | some rest => { s with ahead := rest }
  | none => s.lost

def move (s : State) (count : Nat) (wrap : Wrap) : State :=
  let pointer := wrap.apply s.tape.pointer count
  if h : pointer < s.tape.cells.size then { s with tape := ⟨s.tape.cells, pointer, h⟩ }
  else s.close (.crashed (.badAccess pointer.toUInt64))

/-- The effect of one operation. The state is already behind it; `code` is the whole code. -/
def execute (code : List Operation) (position? : UInt32 → Option Position) (s : State) :
    Operation → State
  | .bind _ => s
  | .jump l => s.jump code l
  | .branchIfZero l => if s.tape.get = 0 then s.jump code l else s
  | .move count wrap => s.move count.toNat wrap
  | .add amount => s.onTape (·.add amount)
  | .reset => s.onTape (·.set 0)
  | .read index => { s with phase := .transferring (position? index) .prompt }
  | .write _ => { s with phase := .transferring none (.offer s.tape.get) }
  | .prologue | .epilogue => s.lost

/-- Take in the reply to a stage of a transfer. -/
def afterTransfer (s : State) (position : Option Position) : Transfer.Next → State
  | .stage t => { s with phase := .transferring position t }
  | .done (.received byte) => { s with phase := .running, tape := s.tape.set byte }
  | .done .sent => { s with phase := .running }
  | .done (.failed e) => s.close (.failed e)

def finished (s : State) : Except Failure Unit → State
  | .ok () => s.close .finished
  | .error f => s.close (.failed (.stream f))

end State

/-- The prologue asks whether the input can be looked at, the epilogue flushes the output. -/
def step (code : List Operation) (position? : UInt32 → Option Position) (s : State) :
    Action byteStream State Ending :=
  match s.phase with
  | .opening =>
    match s.ahead with
    | .prologue :: rest => .ask .canPeek fun canPeek => ⟨.running, s.tape, rest, canPeek⟩
    | _ => .next s.lost
  | .running =>
    match s.ahead with
    | [] => .next s.lost
    | .epilogue :: _ => .ask .flush s.finished
    | op :: rest => .next ({ s with ahead := rest }.execute code position? op)
  | .transferring position stage =>
    .ask stage.request fun reply =>
      s.afterTransfer position (stage.resume s.canPeek position reply)
  | .closed verdict => .halt ⟨verdict, s.tape⟩

/-! ## Labels -/

def boundLabel? : Operation → Option Label
  | .bind l => some l
  | _ => none

/-- The labels that are bound, in order. -/
def boundLabels (code : List Operation) : List Label := code.filterMap boundLabel?

def namedLabel? : Operation → Option Label
  | .jump l => some l
  | .branchIfZero l => some l
  | _ => none

/-- The labels that are jumped to, in order. -/
def namedLabels (code : List Operation) : List Label := code.filterMap namedLabel?

theorem place?_of_not_mem {l : Label} {before : List Operation} (h : l ∉ boundLabels before)
    (rest : List Operation) : place? l (before ++ .bind l :: rest) = some (.bind l :: rest) := by
  induction before with
  | nil => exact if_pos rfl
  | cons op before ih =>
    have hne : op ≠ .bind l := by
      rintro rfl
      exact h (by simp [boundLabels, boundLabel?])
    have hnot : l ∉ boundLabels before := fun hl => h (by
      obtain ⟨op', hop, hl⟩ := List.mem_filterMap.mp hl
      exact List.mem_filterMap.mpr ⟨op', List.mem_cons_of_mem op hop, hl⟩)
    rw [List.cons_append, place?, if_neg hne, ih hnot]

/-- A label that is bound only once is found where it is bound. -/
theorem place?_eq {code before rest : List Operation} {l : Label}
    (hn : (boundLabels code).Nodup) (hc : code = before ++ .bind l :: rest) :
    place? l code = some (.bind l :: rest) := by
  subst hc
  refine place?_of_not_mem (fun hl => ?_) rest
  rw [boundLabels, List.filterMap_append, List.nodup_append] at hn
  exact hn.2.2 l hl l (by simp [boundLabel?]) rfl

/-! ## Runs -/

variable {σ : Type} {code rest : List Operation} {position? : UInt32 → Option Position}
  {d : Device byteStream σ} {tape : Tape} {canPeek : Bool}

/-- At an operation. -/
def State.at (canPeek : Bool) (tape : Tape) (ahead : List Operation) : State :=
  ⟨.running, tape, ahead, canPeek⟩

/-- One operation that does not end the code. -/
theorem reaches_execute (op : Operation) {s : State} (hop : op ≠ .epilogue)
    (hs : (State.at canPeek tape rest).execute code position? op = s) (world : σ) :
    Reaches (step code position?) d 1 (.at canPeek tape (op :: rest)) world s world := by
  refine .next ?_
  cases op with
  | epilogue => exact absurd rfl hop
  | _ => exact congrArg Action.next hs

theorem reaches_jump {l : Label} {target : List Operation} (hl : place? l code = some target)
    (world : σ) :
    Reaches (step code position?) d 1 (.at canPeek tape (.jump l :: rest)) world
      (.at canPeek tape target) world :=
  reaches_execute (.jump l) nofun (by simp [State.execute, State.jump, hl, State.at]) world

theorem reaches_branch {l : Label} {target : List Operation} (hl : place? l code = some target)
    (world : σ) :
    Reaches (step code position?) d 1 (.at canPeek tape (.branchIfZero l :: rest)) world
      (.at canPeek tape (if tape.get = 0 then target else rest)) world := by
  refine reaches_execute (.branchIfZero l) nofun ?_ world
  by_cases hz : tape.get = 0 <;> simp [State.execute, State.jump, hl, State.at, hz]

end LabelCode

end TapeLang
