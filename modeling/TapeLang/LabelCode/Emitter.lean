import TapeLang.LabelCode.Basic

/-!
# Emitters

An emitter takes in label code operation by operation and has names of its own for labels. A list of
instructions can be lowered into any emitter; `Emitter.recorder` only keeps what it is given.
-/

namespace TapeLang

/-- What operations are appended to: `σ` is what has come of them so far, `ν` a name of a label. -/
structure Emitter (σ ν : Type) where
  newLabel : σ → ν × σ
  /-- Place a label at the end of what there is. -/
  bind : ν → σ → σ
  prologue : σ → σ
  epilogue : σ → σ
  move : UInt32 → Wrap → σ → σ
  add : UInt8 → σ → σ
  reset : σ → σ
  branchIfZero : ν → σ → σ
  jump : ν → σ → σ
  read : UInt32 → σ → σ
  write : UInt32 → σ → σ

namespace Emitter

variable {σ ν : Type}

/-- One instruction. Of each loop that is open the names of its top and of the place behind its
bottom are kept, innermost first. The end of a loop that was never opened is refused. -/
def step (e : Emitter σ ν) (wrap : Wrap) (index : Nat) (loops : List (ν × ν)) (s : σ) :
    Op → Option (List (ν × ν)) × σ
  | .move n => (some loops, e.move n.toUInt32 wrap s)
  | .add n => (some loops, e.add n.toUInt8 s)
  | .reset => (some loops, e.reset s)
  | .read => (some loops, e.read index.toUInt32 s)
  | .write => (some loops, e.write index.toUInt32 s)
  | .loopStart =>
    let (top, s) := e.newLabel s
    let (behind, s) := e.newLabel s
    (some ((top, behind) :: loops), e.branchIfZero behind (e.bind top s))
  | .loopEnd =>
    match loops with
    | [] => (none, s)
    | (top, behind) :: outer => (some outer, e.bind behind (e.jump top s))

/-- The instructions from `index` on, and the error if one of them is refused. -/
def steps (e : Emitter σ ν) (wrap : Wrap) (index : Nat) (loops : List (ν × ν)) (s : σ) :
    List Op → Option BuildError × σ
  | [] => if loops.isEmpty then (none, e.epilogue s) else (some (.unbalancedLoops index), s)
  | op :: rest =>
    match e.step wrap index loops s op with
    | (none, s) => (some (.unbalancedLoops index), s)
    | (some loops, s) => e.steps wrap (index + 1) loops s rest

/-- Lower `ops`, for a tape of `tapeLength` cells, into an emitter. -/
def lower (e : Emitter σ ν) (ops : List Op) (tapeLength : Nat) (s : σ) : Option BuildError × σ :=
  match Wrap.ofTapeLength tapeLength with
  | .error error => (some error, s)
  | .ok wrap =>
    if maxInstructions < ops.length then (some (.programTooLarge ops.length), s)
    else e.steps wrap 0 [] (e.prologue s) ops

/-- Operations one behind the other, and the next unused label. -/
def recorder : Emitter (Array Operation × Label) Label where
  newLabel s := (s.2, s.1, s.2 + 1)
  bind l s := (s.1.push (.bind l), s.2)
  prologue s := (s.1.push .prologue, s.2)
  epilogue s := (s.1.push .epilogue, s.2)
  move count wrap s := (s.1.push (.move count wrap), s.2)
  add amount s := (s.1.push (.add amount), s.2)
  reset s := (s.1.push .reset, s.2)
  branchIfZero l s := (s.1.push (.branchIfZero l), s.2)
  jump l s := (s.1.push (.jump l), s.2)
  read index s := (s.1.push (.read index), s.2)
  write index s := (s.1.push (.write index), s.2)

end Emitter

end TapeLang
