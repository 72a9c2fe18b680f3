import TapeLang.Proofs.Assembler.Finish
import TapeLang.Proofs.LabelCode.Flat
import TapeLang.Proofs.Tree.LabelCode

/-!
# Lowering into an emitter

Lowering refuses just the lists whose loops are not nested, and says where. Whatever the emitter does
with what it is given, it has been given the prologue and the calls of the instructions in front of
the fault, or of all instructions and the epilogue.

* `Emitter.Call`, `Emitter.logged`: what an emitter is asked for, and the emitter that keeps it.
* `callsBefore`: the calls of the instructions in front of an index, with the names of all labels
  given.
* `Before`, `Before.step`: what has been asked for in front of an instruction.
* `Verdict`, `lower_verdict`: what lowering answers, and what it has asked for then.
-/

namespace TapeLang

open Lowering

variable {ops : List Op} {op : Op} {j k m : Nat}

/-- At index `m` a loop ends, for the first time, that was never opened. -/
structure Unmatched (ops : List Op) (m : Nat) : Prop where
  timely : Timely ops m
  closing : ops[m]? = some .loopEnd
  below : depthAt ops (m + 1) < 0

namespace Emitter

variable {σ ν : Type}

/-! ## Calls -/

/-- What an emitter is asked for. A new label comes with the name that it was given. -/
inductive Call (ν : Type) where
  | newLabel (l : ν)
  | bind (l : ν)
  | prologue
  | epilogue
  | move (count : UInt32) (wrap : Wrap)
  | add (amount : UInt8)
  | reset
  | branchIfZero (l : ν)
  | jump (l : ν)
  | read (index : UInt32)
  | write (index : UInt32)
deriving DecidableEq

/-- The label that is created or branched to. -/
def Call.wants? : Call ν → Option ν
  | .newLabel l | .branchIfZero l | .jump l => some l
  | _ => none

/-- What comes of a call. -/
def perform (e : Emitter σ ν) (s : σ) : Call ν → σ
  | .newLabel _ => (e.newLabel s).2
  | .bind l => e.bind l s
  | .prologue => e.prologue s
  | .epilogue => e.epilogue s
  | .move count wrap => e.move count wrap s
  | .add amount => e.add amount s
  | .reset => e.reset s
  | .branchIfZero l => e.branchIfZero l s
  | .jump l => e.jump l s
  | .read index => e.read index s
  | .write index => e.write index s

def log (e : Emitter σ ν) (c : Call ν) (s : σ × List (Call ν)) : σ × List (Call ν) :=
  (e.perform s.1 c, s.2 ++ [c])

/-- The emitter that also keeps the calls it was asked for. -/
def logged (e : Emitter σ ν) : Emitter (σ × List (Call ν)) ν where
  newLabel s := ((e.newLabel s.1).1, e.log (.newLabel (e.newLabel s.1).1) s)
  bind l := e.log (.bind l)
  prologue := e.log .prologue
  epilogue := e.log .epilogue
  move count wrap := e.log (.move count wrap)
  add amount := e.log (.add amount)
  reset := e.log .reset
  branchIfZero l := e.log (.branchIfZero l)
  jump l := e.log (.jump l)
  read index := e.log (.read index)
  write index := e.log (.write index)

/-- To keep the calls changes nothing else. -/
theorem step_logged (e : Emitter σ ν) (wrap : Wrap) (index : Nat) (loops : List (ν × ν))
    (s : σ × List (Call ν)) (op : Op) :
    e.step wrap index loops s.1 op =
      ((e.logged.step wrap index loops s op).1, (e.logged.step wrap index loops s op).2.1) := by
  cases op with
  | loopEnd => cases loops <;> rfl
  | move n | add n | reset | loopStart | read | write => rfl

theorem steps_logged (e : Emitter σ ν) (wrap : Wrap) (index : Nat) (loops : List (ν × ν))
    (s : σ × List (Call ν)) (ops : List Op) :
    e.steps wrap index loops s.1 ops =
      ((e.logged.steps wrap index loops s ops).1, (e.logged.steps wrap index loops s ops).2.1) := by
  induction ops generalizing index loops s with
  | nil => cases loops <;> rfl
  | cons op rest ih =>
    have hstep := e.step_logged wrap index loops s op
    rw [steps, steps, hstep]
    cases hnext : e.logged.step wrap index loops s op with
    | mk next t =>
      cases next with
      | none => rfl
      | some loops => exact ih (index + 1) loops t

theorem lower_logged (e : Emitter σ ν) (ops : List Op) (tapeLength : Nat)
    (s : σ × List (Call ν)) :
    e.lower ops tapeLength s.1 =
      ((e.logged.lower ops tapeLength s).1, (e.logged.lower ops tapeLength s).2.1) := by
  unfold lower
  cases Wrap.ofTapeLength tapeLength with
  | error error => rfl
  | ok wrap =>
    dsimp only
    split
    · rfl
    · exact e.steps_logged wrap 0 [] (e.logged.prologue s) ops

/-! ## The calls of instructions -/

/-- The calls of one instruction. A bracket is one of the loop with these labels. -/
def callsOf (wrap : Wrap) (index : Nat) (loop : ν × ν) : Op → List (Call ν)
  | .move n => [.move n.toUInt32 wrap]
  | .add n => [.add n.toUInt8]
  | .reset => [.reset]
  | .read => [.read index.toUInt32]
  | .write => [.write index.toUInt32]
  | .loopStart => [.newLabel loop.1, .newLabel loop.2, .bind loop.1, .branchIfZero loop.2]
  | .loopEnd => [.jump loop.1, .bind loop.2]

/-- The calls of the instruction at index `k`, where the labels of the loop that starts at an index
have these names. -/
def callsAt (wrap : Wrap) (ops : List Op) (names : Nat → ν × ν) (k : Nat) : List (Call ν) :=
  match ops[k]? with
  | none => []
  | some op => callsOf wrap k (names (startOf ops k)) op

/-- The calls of the instructions in front of index `j`. -/
def callsBefore (wrap : Wrap) (ops : List Op) (names : Nat → ν × ν) (j : Nat) : List (Call ν) :=
  (List.range j).flatMap (callsAt wrap ops names)

variable {e : Emitter σ ν} {wrap : Wrap} {names : Nat → ν × ν} {c : Call ν}

theorem callsAt_eq (h : ops[k]? = some op) :
    callsAt wrap ops names k = callsOf wrap k (names (startOf ops k)) op := by
  rw [callsAt, h]

theorem callsBefore_succ (wrap : Wrap) (ops : List Op) (names : Nat → ν × ν) (j : Nat) :
    callsBefore wrap ops names (j + 1) =
      callsBefore wrap ops names j ++ callsAt wrap ops names j := by
  rw [callsBefore, List.range_succ, List.flatMap_append, List.flatMap_singleton]
  rfl

/-- Only the names of loops that start in front of index `j` matter there. -/
theorem callsBefore_congr {more : Nat → ν × ν} (h : ∀ i, i < j → more i = names i) :
    callsBefore wrap ops more j = callsBefore wrap ops names j := by
  refine List.flatMap_congr fun k hk => ?_
  have hlt := Nat.lt_of_le_of_lt (startOf_le ops k) (List.mem_range.mp hk)
  rw [callsAt, callsAt, h _ hlt]

theorem mem_callsBefore : c ∈ callsBefore wrap ops names j ↔
    ∃ k, k < j ∧ ∃ op, ops[k]? = some op ∧ c ∈ callsOf wrap k (names (startOf ops k)) op := by
  rw [callsBefore, List.mem_flatMap]
  simp only [List.mem_range]
  constructor
  · rintro ⟨k, hk, hc⟩
    rw [callsAt] at hc
    split at hc
    · cases hc
    · next op hop => exact ⟨k, hk, op, hop, hc⟩
  · rintro ⟨k, hk, op, hop, hc⟩
    exact ⟨k, hk, by rwa [callsAt_eq hop]⟩

/-! ## In front of an instruction -/

/-- What an emitter has been asked for in front of index `j`, having started with `s`. -/
structure Before (e : Emitter σ ν) (s : σ) (wrap : Wrap) (ops : List Op) (names : Nat → ν × ν)
    (j : Nat) (loops : List (ν × ν)) (t : σ × List (Call ν)) : Prop where
  performed : t.1 = t.2.foldl e.perform s
  calls : t.2 = .prologue :: callsBefore wrap ops names j
  loops : loops = (openAt ops j).map names
  timely : Timely ops j

variable {s : σ} {loops : List (ν × ν)} {t : σ × List (Call ν)}

theorem performed_log (h : t.1 = t.2.foldl e.perform s) (c : Call ν) :
    (e.log c t).1 = (e.log c t).2.foldl e.perform s := by
  rw [log, List.foldl_append, ← h]
  rfl

/-- The start of a loop gets two new labels. -/
theorem Before.loopStart (h : Before e s wrap ops names j loops t)
    (hop : ops[j]? = some .loopStart) :
    ∃ names loops' t', e.logged.step wrap j loops t .loopStart = (some loops', t') ∧
      Before e s wrap ops names (j + 1) loops' t' := by
  obtain ⟨hperformed, hcalls, hloops, htimely⟩ := h
  -- the names that the new labels get are added to those there are
  obtain ⟨top, htop⟩ : ∃ top, top = (e.newLabel t.1).1 := ⟨_, rfl⟩
  obtain ⟨behind, hbehind⟩ : ∃ l, l = (e.newLabel (e.log (.newLabel top) t).1).1 := ⟨_, rfl⟩
  have hsame {i : Nat} (hi : i < j) : Function.update names j (top, behind) i = names i :=
    Function.update_of_ne (Nat.ne_of_lt hi) ..
  refine ⟨Function.update names j (top, behind), (top, behind) :: loops,
    e.log (.branchIfZero behind) (e.log (.bind top)
      (e.log (.newLabel behind) (e.log (.newLabel top) t))), ?_, ?_, ?_, ?_, ?_⟩
  · rw [hbehind, htop]
    rfl
  · exact performed_log (performed_log (performed_log (performed_log hperformed _) _) _) _
  · rw [callsBefore_succ, callsBefore_congr fun i hi => hsame hi, callsAt_eq hop,
      startOf_loopStart hop, Function.update_self, ← List.cons_append, ← hcalls]
    simp [log, callsOf]
  · rw [openAt_loopStart hop, List.map_cons, Function.update_self, hloops]
    exact congrArg _ (List.map_congr_left fun i hi => (hsame (start_of_mem_openAt hi).1).symm)
  · refine htimely.succ ?_
    have hsucc := depthAt_succ ops j
    rw [hop, descent] at hsucc
    have hnonneg := htimely j (Nat.le_refl j)
    omega

/-- The end of a loop uses the labels of the innermost open one, if there is any. -/
theorem Before.loopEnd (h : Before e s wrap ops names j loops t) (hop : ops[j]? = some .loopEnd) :
    (e.logged.step wrap j loops t .loopEnd = (none, t) ∧ Unmatched ops j) ∨
      ∃ loops' t', e.logged.step wrap j loops t .loopEnd = (some loops', t') ∧
        Before e s wrap ops names (j + 1) loops' t' := by
  obtain ⟨hperformed, hcalls, hloops, htimely⟩ := h
  have hsucc := depthAt_succ ops j
  rw [hop, descent] at hsucc
  have hlength := htimely.length_openAt
  cases hopen : openAt ops j with
  | nil =>
    left
    rw [hopen] at hloops hlength
    rw [List.length_nil] at hlength
    exact ⟨by rw [hloops]; rfl, htimely, hop, by omega⟩
  | cons i outer =>
    right
    rw [hopen] at hloops hlength
    rw [List.length_cons] at hlength
    refine ⟨outer.map names, e.log (.bind (names i).2) (e.log (.jump (names i).1) t),
      by rw [hloops]; rfl, performed_log (performed_log hperformed _) _, ?_, ?_, ?_⟩
    · rw [callsBefore_succ, callsAt_eq hop, startOf_of_cons hop hopen, ← List.cons_append,
        ← hcalls]
      simp [log, callsOf]
    · rw [openAt_loopEnd hop, hopen, List.tail_cons]
    · exact htimely.succ (by omega)

/-- Each other instruction is one call. -/
theorem Before.command (h : Before e s wrap ops names j loops t) (hop : ops[j]? = some op)
    (hs : op ≠ .loopStart) (he : op ≠ .loopEnd) :
    ∃ t', e.logged.step wrap j loops t op = (some loops, t') ∧
      Before e s wrap ops names (j + 1) loops t' := by
  obtain ⟨hperformed, hcalls, hloops, htimely⟩ := h
  have hopen : openAt ops (j + 1) = openAt ops j := by
    apply openAt_other
    · rw [hop]
      exact fun hstart => hs (Option.some.inj hstart)
    · rw [hop]
      exact fun hend => he (Option.some.inj hend)
  obtain ⟨c, hstep, hc⟩ : ∃ c, e.logged.step wrap j loops t op = (some loops, e.log c t) ∧
      callsOf wrap j (names (startOf ops j)) op = [c] := by
    cases op with
    | loopStart | loopEnd => contradiction
    | move n | add n | reset | read | write => exact ⟨_, rfl, rfl⟩
  refine ⟨e.log c t, hstep, performed_log hperformed c, ?_, by rw [hopen, hloops], htimely.succ ?_⟩
  · rw [callsBefore_succ, callsAt_eq hop, hc, ← List.cons_append, ← hcalls]
    rfl
  · have hsucc := depthAt_succ ops j
    rw [hop] at hsucc
    have hnonneg := htimely j (Nat.le_refl j)
    have hzero : descent (some op) = 0 := by
      cases op <;> first | rfl | contradiction
    omega

/-- One instruction: its calls are made, unless it ends a loop that was never opened. -/
theorem Before.step (h : Before e s wrap ops names j loops t) (hop : ops[j]? = some op) :
    (e.logged.step wrap j loops t op = (none, t) ∧ Unmatched ops j) ∨
      ∃ names loops' t', e.logged.step wrap j loops t op = (some loops', t') ∧
        Before e s wrap ops names (j + 1) loops' t' := by
  by_cases hs : op = .loopStart
  · subst hs
    exact .inr (h.loopStart hop)
  · by_cases he : op = .loopEnd
    · subst he
      exact (h.loopEnd hop).imp_right fun hmade => ⟨names, hmade⟩
    · exact .inr ⟨names, loops, h.command hop hs he⟩

/-! ## The verdict -/

/-- Just the prologue and the calls in front of index `j`, where the end of a loop uses the labels
that its start was given. -/
def Sends (ops : List Op) (tapeLength j : Nat) (calls : List (Call ν)) : Prop :=
  ∃ wrap names, Wrap.ofTapeLength tapeLength = .ok wrap ∧
    calls = .prologue :: callsBefore wrap ops names j ∧
    ∀ m, m < j → ops[m]? = some .loopEnd → Closes ops (startOf ops m) m

/-- What lowering answers, and what it has asked for. -/
inductive Verdict (ops : List Op) (tapeLength : Nat) : Option BuildError → List (Call ν) → Prop
  | tooLarge (h : maxTapeLength < tapeLength) :
    Verdict ops tapeLength (some (.tapeTooLarge tapeLength)) []
  | unmatched {m : Nat} {calls : List (Call ν)} (hlength : tapeLength ≤ maxTapeLength)
      (h : Unmatched ops m) (hcalls : Sends ops tapeLength m calls) :
    Verdict ops tapeLength (some (.unbalancedLoops m)) calls
  | unclosed {calls : List (Call ν)} (hlength : tapeLength ≤ maxTapeLength)
      (htimely : Timely ops ops.length) (hopen : 0 < depthAt ops ops.length)
      (hcalls : Sends ops tapeLength ops.length calls) :
    Verdict ops tapeLength (some (.unbalancedLoops ops.length)) calls
  /-- All labels that were created, or are branched to, have been bound. -/
  | accepted {calls : List (Call ν)} (hlength : tapeLength ≤ maxTapeLength) (h : Nested ops)
      (hcalls : Sends ops tapeLength ops.length calls)
      (hbound : ∀ c ∈ calls, ∀ l, c.wants? = some l → .bind l ∈ calls) :
    Verdict ops tapeLength none (calls ++ [.epilogue])

theorem Before.sends (h : Before e s wrap ops names j loops t) {tapeLength : Nat}
    (hw : Wrap.ofTapeLength tapeLength = .ok wrap) : Sends ops tapeLength j t.2 := by
  refine ⟨wrap, names, hw, h.calls, fun m hm he => ?_⟩
  obtain ⟨k, outer, hopen, hcloses⟩ := (h.timely.mono hm).openAt_loopEnd he
  rwa [startOf_of_cons he hopen]

/-- Where loops are nested, both labels of each loop are bound. -/
theorem bind_mem_callsBefore (hn : Nested ops) (hk : ops[k]? = some .loopStart) :
    .bind (names k).1 ∈ callsBefore wrap ops names ops.length ∧
      .bind (names k).2 ∈ callsBefore wrap ops names ops.length := by
  obtain ⟨m, hm⟩ := hn.exists_closes hk
  have hstart : startOf ops m = k := (closes_startOf hn hm.closing).unique_start hm
  constructor
  · refine mem_callsBefore.mpr ⟨k, (List.getElem?_eq_some_iff.mp hk).1, _, hk, ?_⟩
    rw [startOf_loopStart hk]
    simp [callsOf]
  · refine mem_callsBefore.mpr ⟨m, (List.getElem?_eq_some_iff.mp hm.closing).1, _, hm.closing, ?_⟩
    rw [hstart]
    simp [callsOf]

/-- Only labels of loops are created or branched to. -/
theorem exists_of_wants {l : ν} (hn : Nested ops) (hc : c ∈ callsBefore wrap ops names j)
    (hl : c.wants? = some l) :
    ∃ k, ops[k]? = some .loopStart ∧ (l = (names k).1 ∨ l = (names k).2) := by
  obtain ⟨k, -, op, hop, hc⟩ := mem_callsBefore.mp hc
  cases op with
  | loopStart =>
    rw [startOf_loopStart hop] at hc
    simp only [callsOf, List.mem_cons, List.not_mem_nil, or_false] at hc
    refine ⟨k, hop, ?_⟩
    rcases hc with rfl | rfl | rfl | rfl <;> simp_all [Call.wants?]
  | loopEnd =>
    simp only [callsOf, List.mem_cons, List.not_mem_nil, or_false] at hc
    refine ⟨startOf ops k, (closes_startOf hn hop).opening, ?_⟩
    rcases hc with rfl | rfl <;> simp_all [Call.wants?]
  | move n | add n | reset | read | write =>
    rw [callsOf, List.mem_singleton] at hc
    subst hc
    cases hl

/-- From any instruction on. The induction is on the instructions that are left. -/
theorem Before.verdict {tapeLength : Nat} {rest : List Op}
    (h : Before e s wrap ops names j loops t) (hw : Wrap.ofTapeLength tapeLength = .ok wrap)
    (hlength : tapeLength ≤ maxTapeLength) (hj : j ≤ ops.length) (hrest : ops.drop j = rest) :
    ∃ error t', e.logged.steps wrap j loops t rest = (error, t') ∧
      t'.1 = t'.2.foldl e.perform s ∧ Verdict ops tapeLength error t'.2 := by
  induction rest generalizing names j loops t with
  | nil =>
    obtain rfl : j = ops.length := Nat.le_antisymm hj (List.drop_eq_nil_iff.mp hrest)
    have hdepth := h.timely.length_openAt
    have hsends := h.sends hw
    cases hopen : openAt ops ops.length with
    | nil =>
      have hn : Nested ops := by
        rw [hopen, List.length_nil, depthAt, List.take_length] at hdepth
        refine ⟨fun i => ?_, fun i hi => by rw [depthAt, List.take_of_length_le hi, ← hdepth]; rfl⟩
        rcases Nat.le_total i ops.length with hi | hi
        · exact h.timely i hi
        · rw [depthAt, List.take_of_length_le hi, ← hdepth]
          exact Int.le_refl 0
      refine ⟨none, e.log .epilogue t, by rw [steps, h.loops, hopen]; rfl,
        performed_log h.performed _, .accepted hlength hn hsends fun c hc l hl => ?_⟩
      rw [h.calls] at hc ⊢
      rcases List.mem_cons.mp hc with rfl | hc
      · cases hl
      obtain ⟨k, hk, hname⟩ := exists_of_wants hn hc hl
      obtain ⟨htop, hbehind⟩ := @bind_mem_callsBefore _ _ _ wrap names hn hk
      rcases hname with rfl | rfl
      · exact List.mem_cons_of_mem _ htop
      · exact List.mem_cons_of_mem _ hbehind
    | cons k outer =>
      rw [hopen, List.length_cons] at hdepth
      exact ⟨some (.unbalancedLoops ops.length), t, by rw [steps, h.loops, hopen]; rfl,
        h.performed, .unclosed hlength h.timely (by omega) hsends⟩
  | cons op rest ih =>
    obtain ⟨hlt, hop, hnext⟩ := of_drop_eq_cons hrest
    rcases h.step hop with ⟨hstep, hunmatched⟩ | ⟨names, loops', t', hstep, hbefore⟩
    · exact ⟨some (.unbalancedLoops j), t, by rw [steps, hstep], h.performed,
        .unmatched hlength hunmatched (h.sends hw)⟩
    · rw [steps, hstep]
      exact ih hbefore hlt hnext

/-- Lowering into an emitter that keeps its calls. -/
theorem logged_verdict (e : Emitter σ ν) (s : σ) {tapeLength : Nat}
    (h : ops.length ≤ maxInstructions) :
    ∃ error t, e.logged.lower ops tapeLength (s, []) = (error, t) ∧
      t.1 = t.2.foldl e.perform s ∧ Verdict ops tapeLength error t.2 := by
  by_cases hlarge : maxTapeLength < tapeLength
  · exact ⟨some (.tapeTooLarge tapeLength), (s, []), by rw [lower, Wrap.ofTapeLength, if_pos hlarge],
      rfl, .tooLarge hlarge⟩
  have hlength := Nat.le_of_not_lt hlarge
  obtain ⟨wrap, hw⟩ := Wrap.exists_ofTapeLength hlength
  obtain ⟨name, -⟩ : ∃ name, name = (e.newLabel s).1 := ⟨_, rfl⟩
  have hstart : Before e s wrap ops (fun _ => (name, name)) 0 [] (e.logged.prologue (s, [])) :=
    ⟨rfl, rfl, rfl, fun i hi => by rw [Nat.le_zero.mp hi]; exact Int.le_refl 0⟩
  rw [lower, hw]
  dsimp only
  rw [if_neg (Nat.not_lt.mpr h)]
  exact hstart.verdict hw hlength (Nat.zero_le _) List.drop_zero

end Emitter

/-! ## Lowering into an assembler -/

namespace Assembler

/-- What an assembler is asked for by a call. -/
def Call.ofEmitter : Emitter.Call Label → Call
  | .newLabel _ => .newLabel
  | .bind l => .operation (.bind l)
  | .prologue => .operation .prologue
  | .epilogue => .operation .epilogue
  | .move count wrap => .operation (.move count wrap)
  | .add amount => .operation (.add amount)
  | .reset => .operation .reset
  | .branchIfZero l => .operation (.branchIfZero l)
  | .jump l => .operation (.jump l)
  | .read index => .operation (.read index)
  | .write index => .operation (.write index)

theorem foldl_perform (a : Assembler) (calls : List (Emitter.Call Label)) :
    calls.foldl emitter.perform a = a.run (calls.map Call.ofEmitter) := by
  rw [run, List.foldl_map]
  congr 1
  funext a c
  cases c <;> rfl

open Fragment

/-- A branch leads within what its call emits, to a label that the call branches to, or to the exit
after a failure. -/
theorem target_of_branch {linkage : Linkage} {next : Label} {c : Emitter.Call Label}
    {b : X86.Branch} {target : Target}
    (h : .branch b target ∈ (Call.ofEmitter c).fragments linkage next) :
    target ∈ marks ((Call.ofEmitter c).fragments linkage next) ∨ target = .fail ∨
      ∃ l, c.wants? = some l ∧ target = .label l := by
  cases c with
  | newLabel l => cases h
  | epilogue =>
    simp [Call.ofEmitter, Call.fragments, Block.epilogueAt, Block.plain] at h
    exact .inl (by simp [Call.ofEmitter, Call.fragments, Block.epilogueAt, h])
  | _ =>
    right
    rw [Call.ofEmitter, Call.fragments_operation (by simp)] at h
    rcases Block.target_of_branch h with hfail | ⟨l, hop, hl⟩
    · exact .inl hfail
    · refine .inr ⟨l, ?_, hl⟩
      rcases hop with hop | hop <;> cases hop <;> rfl

/-- The fragments of a call are emitted one behind the other. -/
theorem exists_infix_emitted {linkage : Linkage} {next : Label} {calls : List Call} {c : Call}
    (h : c ∈ calls) : ∃ n, c.fragments linkage n <:+: emitted linkage next calls := by
  induction calls generalizing next with
  | nil => cases h
  | cons d rest ih =>
    rcases List.mem_cons.mp h with rfl | h
    · exact ⟨next, (List.prefix_append _ _).isInfix⟩
    · obtain ⟨n, hn⟩ := @ih (next + d.created) h
      exact ⟨n, hn.trans (List.suffix_append _ _).isInfix⟩

theorem exists_of_mem_emitted {linkage : Linkage} {next : Label} {calls : List Call}
    {f : Fragment} (h : f ∈ emitted linkage next calls) :
    ∃ c ∈ calls, ∃ n, c.fragments linkage n <:+: emitted linkage next calls ∧
      f ∈ c.fragments linkage n := by
  induction calls generalizing next with
  | nil => cases h
  | cons c rest ih =>
    rcases List.mem_append.mp h with h | h
    · exact ⟨c, List.mem_cons_self, next, (List.prefix_append _ _).isInfix, h⟩
    · obtain ⟨d, hd, n, hn, hf⟩ := ih h
      exact ⟨d, List.mem_cons_of_mem c hd, n, hn.trans (List.suffix_append _ _).isInfix, hf⟩

/-- If all labels that calls branch to are bound, and there is an epilogue, then the target of every
branch is marked. -/
theorem mem_marks_emitted {linkage : Linkage} {next : Label} {calls : List (Emitter.Call Label)}
    (hbound : ∀ c ∈ calls, ∀ l, c.wants? = some l → .bind l ∈ calls) (hend : .epilogue ∈ calls)
    {b : X86.Branch} {target : Target}
    (h : .branch b target ∈ emitted linkage next (calls.map Call.ofEmitter)) :
    target ∈ marks (emitted linkage next (calls.map Call.ofEmitter)) := by
  -- what a call marks is marked among all fragments
  have hmarked {c : Emitter.Call Label} {target : Target} (hc : c ∈ calls)
      (hm : ∀ n, target ∈ marks ((Call.ofEmitter c).fragments linkage n)) :
      target ∈ marks (emitted linkage next (calls.map Call.ofEmitter)) := by
    obtain ⟨n, hn⟩ := @exists_infix_emitted linkage next _ _ (List.mem_map_of_mem hc)
    exact (hn.filterMap Fragment.target?).mem (hm n)
  obtain ⟨d, hd, n, hn, hf⟩ := exists_of_mem_emitted h
  obtain ⟨c, hc, rfl⟩ := List.mem_map.mp hd
  rcases target_of_branch hf with hm | rfl | ⟨l, hl, rfl⟩
  · exact (hn.filterMap Fragment.target?).mem hm
  · exact hmarked hend fun n => by
      simp [Call.ofEmitter, Call.fragments, Block.epilogueAt]
  · exact hmarked (hbound c hc l hl) fun n => List.mem_singleton_self _

end Assembler

namespace Emitter

variable {σ ν : Type}

/-- Whatever the emitter, lowering answers and asks as its verdict says. What a new assembler was
asked for can be finished, as far as labels go. -/
theorem lower_verdict (e : Emitter σ ν) (s : σ) (ops : List Op) (tapeLength : Nat)
    (h : ops.length ≤ maxInstructions) :
    (∃ error t calls, e.lower ops tapeLength s = (error, t) ∧
      e.logged.lower ops tapeLength (s, []) = (error, t, calls) ∧
      t = calls.foldl e.perform s ∧ Verdict ops tapeLength error calls) ∧
    ∀ linkage a, Assembler.emitter.lower ops tapeLength (.start linkage) = (none, a) →
      a.finish ≠ .error .unboundLabel := by
  constructor
  · obtain ⟨error, ⟨t, calls⟩, hlower, hperformed, hverdict⟩ := e.logged_verdict s h
    refine ⟨error, t, calls, ?_, hlower, hperformed, hverdict⟩
    rw [e.lower_logged ops tapeLength (s, []), hlower]
  · intro linkage a ha
    obtain ⟨error, ⟨t, calls⟩, hlower, hperformed, hverdict⟩ :=
      Assembler.emitter.logged_verdict (.start linkage) h
    rw [Assembler.emitter.lower_logged ops tapeLength (.start linkage, []), hlower] at ha
    obtain ⟨rfl, rfl⟩ := Prod.mk.inj ha
    cases hverdict with
    | @accepted calls _ _ hcalls hbound =>
      rw [Assembler.foldl_perform] at hperformed
      rw [hperformed]
      refine ((Assembler.holds_start linkage).run _).ne_unboundLabel fun b target hb => ?_
      refine Assembler.mem_marks_emitted (fun c hc l hl => ?_) (by simp) hb
      rcases List.mem_append.mp hc with hc | hc
      · exact List.mem_append_left _ (hbound c hc l hl)
      · rw [List.mem_singleton.mp hc] at hl
        cases hl

/-- Nothing is asked for a loop end that nothing opened, nor for what is behind it. -/
theorem lower_verdict_unmatched :
    recorder.logged.lower [.loopStart, .loopEnd, .loopEnd, .loopStart] 10 ((#[], 0), []) =
      (some (.unbalancedLoops 2), (#[.prologue, .bind 0, .branchIfZero 1, .jump 0, .bind 1], 2),
        [.prologue, .newLabel 0, .newLabel 1, .bind 0, .branchIfZero 1, .jump 0, .bind 1]) ∧
    Verdict [.loopStart, .loopEnd, .loopEnd, .loopStart] 10 (some (.unbalancedLoops 2))
      ([.prologue, .newLabel 0, .newLabel 1, .bind 0, .branchIfZero 1, .jump 0, .bind 1] :
        List (Call Label)) := by
  obtain ⟨⟨error, t, calls, -, hlogged, -, hverdict⟩, -⟩ := lower_verdict recorder (#[], 0)
    [.loopStart, .loopEnd, .loopEnd, .loopStart] 10 (by decide)
  have hrun : recorder.logged.lower [.loopStart, .loopEnd, .loopEnd, .loopStart] 10 ((#[], 0), []) =
      (some (.unbalancedLoops 2), (#[.prologue, .bind 0, .branchIfZero 1, .jump 0, .bind 1], 2),
        [.prologue, .newLabel 0, .newLabel 1, .bind 0, .branchIfZero 1, .jump 0, .bind 1]) := by
    decide
  rw [hrun] at hlogged
  obtain ⟨rfl, hrest⟩ := Prod.mk.inj hlogged
  obtain ⟨rfl, rfl⟩ := Prod.mk.inj hrest
  exact ⟨hrun, hverdict⟩

end Emitter

end TapeLang
