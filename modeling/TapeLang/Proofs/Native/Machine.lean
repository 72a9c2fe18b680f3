import TapeLang.Proofs.Layout

/-!
# Machines around a processor

A machine that keeps a processor and carries out the instructions that the processor finds. What it
does in between, where there is no instruction or a system call, is left open.

* `Drives`: the machine carries out instructions.
* `reaches_follow`, `reaches_jump`, `reaches_jumpIf`, `reaches_jumpShort`: straight code and branches
  in a text.
* `reaches_verdict`: a test of a register and a branch on the outcome.
-/

namespace TapeLang.X86

variable {I : Interface} {S R σ : Type} {step : S → Action I S R} {text : Text} {inj : Cpu → S}

/-- In the states `inj c` the machine does what the processor does. -/
def Drives (step : S → Action I S R) (text : Text) (inj : Cpu → S) : Prop :=
  ∀ {c c' : Cpu} {i : Instr} {n : Nat}, text.fetch? c.ip = some (i, n) →
    (c.skip n.toUInt64).execute i = .running c' → step (inj c) = .next (inj c')

/-- The flags after the test of a register that holds `v`. -/
def Flags.ofTest : Width → UInt64 → Flags
  | .dword, v => .ofBits32 v.toUInt32
  | .qword, v => .ofBits64 v

variable {d : Device I σ} {place : Target → Nat} {k : Nat} {c c' : Cpu}

/-! ## Branches -/

section Branches

variable {t : Target} {cond : Cond} {rest : List Fragment} (hip : c.ip = text.address k)
include hip

theorem exists_execute_jump (hc : text.HasAt place k (.branch .jump t :: rest)) :
    ∃ dist n, text.fetch? (text.address k) = some (.branch .jump dist, n) ∧
      (c.skip n.toUInt64).execute (.branch .jump dist) =
        .running (c.jump (text.address (place t))) := by
  obtain ⟨⟨dist, hf, hd⟩, -⟩ := hc
  refine ⟨dist, _, hf, ?_⟩
  rw [← hd, ← Text.address_add, ← hip]
  rfl

theorem exists_execute_jumpIf (hc : text.HasAt place k (.branch (.jumpIf cond) t :: rest)) :
    ∃ dist n, text.fetch? (text.address k) = some (.branch (.jumpIf cond) dist, n) ∧
      (c.skip n.toUInt64).execute (.branch (.jumpIf cond) dist) =
        .running (c.jump (if c.flags.holds cond then text.address (place t)
          else text.address (k + (Fragment.branch (.jumpIf cond) t).size))) := by
  obtain ⟨⟨dist, hf, hd⟩, -⟩ := hc
  refine ⟨dist, _, hf, ?_⟩
  rw [← hd, ← Text.address_add, ← hip]
  by_cases h : c.flags.holds cond
  · rw [if_pos h]
    exact congrArg Cpu.Outcome.running (if_pos h)
  · rw [if_neg h]
    exact congrArg Cpu.Outcome.running (if_neg h)

theorem execute_jumpShort (dist : Int8) :
    (c.skip (Instr.jumpShort cond dist).size.toUInt64).execute (.jumpShort cond dist) =
      .running (c.jump (if c.flags.holds cond then text.address (k + 2) + signed8 dist
        else text.address (k + 2))) := by
  have hsize : (Instr.jumpShort cond dist).size = 2 := rfl
  rw [hsize, ← Text.address_add, ← hip]
  by_cases h : c.flags.holds cond
  · rw [if_pos h]
    exact congrArg Cpu.Outcome.running (if_pos h)
  · rw [if_neg h]
    exact congrArg Cpu.Outcome.running (if_neg h)

end Branches

/-! ## Stretches of code -/

section

variable (hr : Drives step text inj)
include hr

theorem reaches_execute {i : Instr} {n : Nat} (hc : text.fetch? c.ip = some (i, n))
    (he : (c.skip n.toUInt64).execute i = .running c') (w : σ) :
    Reaches step d 1 (inj c) w (inj c') w :=
  .next (hr hc he)

theorem reaches_instr {i : Instr} {rest : List Fragment} (hc : text.HasAt place k (.instr i :: rest))
    (hip : c.ip = text.address k) (he : (c.skip i.size.toUInt64).execute i = .running c') (w : σ) :
    Reaches step d 1 (inj c) w (inj c') w :=
  reaches_execute hr (hip ▸ hc.1) he w

/-- Straight code is carried out from front to back. -/
theorem reaches_follow {code : List Instr} (hc : text.HasAt place k (Block.plain code))
    (hs : ∀ i ∈ code, i.IsStraight) (hip : c.ip = text.address k)
    (hf : c.follow code = .running c') (w : σ) :
    Reaches step d code.length (inj c) w (inj c') w := by
  induction code generalizing c k with
  | nil =>
    cases hf
    exact .refl _ w
  | cons i rest ih =>
    unfold Cpu.follow at hf
    split at hf
    case h_1 c₁ he =>
      have hip₁ : c₁.ip = text.address (k + i.size) := by
        rw [Cpu.ip_execute (hs i (List.mem_cons_self ..)) he, Cpu.ip_skip, hip, Text.address_add]
      have hone := reaches_instr (d := d) hr hc hip he w
      have hrest := ih hc.2 (fun j hj => hs j (List.mem_cons_of_mem i hj)) hip₁ hf
      rw [List.length_cons, Nat.add_comm]
      exact hone.trans hrest
    case h_2 hne => exact absurd hf (hne c')

/-- Behind straight code. -/
theorem exists_follow {code : List Instr} (hc : text.HasAt place k (Block.plain code))
    (hs : ∀ i ∈ code, i.IsStraight) (hip : c.ip = text.address k)
    (hf : c.follow code = .running c') (w : σ) :
    Reaches step d code.length (inj c) w (inj c') w ∧ c'.ip = text.address (k + codeSize code) := by
  refine ⟨reaches_follow hr hc hs hip hf w, ?_⟩
  rw [Cpu.ip_follow hs hf, hip, Text.address_add]

theorem reaches_jump {t : Target} {rest : List Fragment}
    (hc : text.HasAt place k (.branch .jump t :: rest)) (hip : c.ip = text.address k) (w : σ) :
    Reaches step d 1 (inj c) w (inj (c.jump (text.address (place t)))) w := by
  obtain ⟨dist, n, hf, he⟩ := exists_execute_jump hip hc
  exact reaches_execute hr (hip ▸ hf) he w

theorem reaches_jumpIf {cond : Cond} {t : Target} {rest : List Fragment}
    (hc : text.HasAt place k (.branch (.jumpIf cond) t :: rest)) (hip : c.ip = text.address k)
    (w : σ) :
    Reaches step d 1 (inj c) w
      (inj (c.jump (if c.flags.holds cond then text.address (place t)
        else text.address (k + (Fragment.branch (.jumpIf cond) t).size)))) w := by
  obtain ⟨dist, n, hf, he⟩ := exists_execute_jumpIf hip hc
  exact reaches_execute hr (hip ▸ hf) he w

theorem reaches_jumpShort {cond : Cond} {dist : Int8} {rest : List Fragment}
    (hc : text.HasAt place k (.instr (.jumpShort cond dist) :: rest)) (hip : c.ip = text.address k)
    (w : σ) :
    Reaches step d 1 (inj c) w
      (inj (c.jump (if c.flags.holds cond then text.address (k + 2) + signed8 dist
        else text.address (k + 2)))) w :=
  reaches_instr hr hc hip (execute_jumpShort hip dist) w

theorem exists_test {width : Width} {q : Reg} {rest : List Fragment}
    (hc : text.HasAt place k (.instr (.test width q q) :: rest)) (hip : c.ip = text.address k)
    (w : σ) :
    ∃ c', Reaches step d 1 (inj c) w (inj c') w ∧
      c'.ip = text.address (k + (Instr.test width q q).size) ∧
      c'.flags = .ofTest width (c.get q) ∧ c'.memory = c.memory ∧
      ∀ r : Reg, c'.get r = c.get r := by
  obtain ⟨c₁, he, hflags, hm, hregs⟩ : ∃ c₁,
      (c.skip (Instr.test width q q).size.toUInt64).execute (.test width q q) = .running c₁ ∧
      c₁.flags = .ofTest width (c.get q) ∧ c₁.memory = c.memory ∧
      ∀ r : Reg, c₁.get r = c.get r := by
    cases width with
    | dword => exact ⟨_, rfl, by simp [Flags.ofTest], by simp, fun _ => by simp⟩
    | qword => exact ⟨_, rfl, by simp [Flags.ofTest], by simp, fun _ => by simp⟩
  have hstraight : (Instr.test width q q).IsStraight := by simp [Instr.IsStraight]
  refine ⟨c₁, reaches_instr hr hc hip he w, ?_, hflags, hm, hregs⟩
  rw [Cpu.ip_execute hstraight he, Cpu.ip_skip, hip, Text.address_add]

/-- A test of a register and a branch on the outcome, which leave everything as it was but the
flags. -/
theorem reaches_verdict {width : Width} {q : Reg} {cond : Cond} {t : Target} {rest : List Fragment}
    (hc : text.HasAt place k (.instr (.test width q q) :: .branch (.jumpIf cond) t :: rest))
    (hip : c.ip = text.address k) (w : σ) :
    ∃ c', Reaches step d 2 (inj c) w (inj c') w ∧
      c'.ip = (if (Flags.ofTest width (c.get q)).holds cond then text.address (place t)
        else text.address (k + Fragment.sizes
          [.instr (.test width q q), .branch (.jumpIf cond) t])) ∧
      c'.memory = c.memory ∧ ∀ r : Reg, c'.get r = c.get r := by
  obtain ⟨c₁, hr₁, hip₁, hflags, hm, hregs⟩ := exists_test (d := d) hr hc hip w
  have hr₂ := reaches_jumpIf (d := d) hr hc.2 hip₁ w
  refine ⟨_, hr₁.trans hr₂, ?_, ?_, fun r => ?_⟩
  · rw [Cpu.ip_jump, hflags]
    simp [Fragment.size, Nat.add_assoc]
  · rw [Cpu.memory_jump, hm]
  · rw [Cpu.get_jump, hregs]

end

/-- A jump back over the code `skipped`, which ends right before it. -/
theorem Text.address_jumpBack (t : Text) (k : Nat) {skipped : List Instr}
    (h : codeSize skipped < 2 ^ 30) :
    ∃ dist, Block.jumpBack skipped = .branch .jump dist ∧
      t.address (k + codeSize skipped) + (Block.jumpBack skipped).size.toUInt64 + signed32 dist =
        t.address k := by
  refine ⟨_, rfl, ?_⟩
  have hsize (dist : Int32) : (Instr.branch .jump dist).size = 5 := rfl
  apply UInt64.toNat_inj.mp
  rw [Block.jumpBack, hsize, hsize, UInt64.toNat_add, toNat_signed32,
    Int32.toInt_ofInt_of_le (by omega) (by omega)]
  simp only [address, UInt64.toNat_add, Nat.toUInt64, UInt64.toNat_ofNat']
  omega

end TapeLang.X86
