import TapeLang.Proofs.X86.Cpu

/-!
# Words in memory and on the stack

Instructions that read or write a word. Pushing and popping a row of registers is said for rows of
words above the top of the stack.

* `Memory.Stacked`: these words stand one above the other.
* `Cpu.follow_pushes`, `Cpu.follow_pops`: what is pushed is popped in the opposite order.
-/

namespace TapeLang.X86

open TapeLang.X86.Span

namespace Memory

def Stacked (m : Memory) (top : UInt64) : List UInt64 → Prop
  | [] => True
  | v :: vs => m.loadWord top = v ∧ m.Stacked (top + 8) vs

variable {m m' : Memory}

theorem inside_word {top : UInt64} {n : Nat} : Inside ⟨top, 8⟩ ⟨top, 8 * (n + 1)⟩ :=
  inside_of_le (by omega)

theorem inside_rest {top : UInt64} {n : Nat} : Inside ⟨top + 8, 8 * n⟩ ⟨top, 8 * (n + 1)⟩ :=
  inside_of_offset 8 (by rw [UInt64.add_comm, UInt64.add_sub_cancel]; rfl) (by omega)

theorem Stacked.congr {top : UInt64} {vs : List UInt64} (h : m.Stacked top vs)
    (hm : ∀ x, Has ⟨top, 8 * vs.length⟩ x → m'.load x = m.load x) : m'.Stacked top vs := by
  induction vs generalizing top with
  | nil => trivial
  | cons v vs ih =>
    rw [List.length_cons] at hm
    refine ⟨?_, ih h.2 fun x hx => hm x (inside_rest x hx)⟩
    rw [loadWord_congr fun x hx => hm x (inside_word x hx)]
    exact h.1

end Memory

namespace Cpu

open Memory

theorem sub_sub_words (a : UInt64) (n : Nat) :
    a - 8 - (8 * n).toUInt64 = a - (8 * (n + 1)).toUInt64 := by
  rw [Nat.mul_succ, Nat.add_comm]
  exact sub_sub_bytes a 8 (8 * n)

theorem add_add_words (a : UInt64) (n : Nat) :
    a + 8 + (8 * n).toUInt64 = a + (8 * (n + 1)).toUInt64 := by
  apply UInt64.toNat_inj.mp
  simp only [UInt64.toNat_add, Nat.toUInt64, UInt64.toNat_ofNat', UInt64.reduceToNat]
  have := a.toNat_lt
  omega

theorem execute_push {c : Cpu} {v : UInt64} (hc : c.memory.Covers ⟨c.get .rsp - 8, 8⟩) :
    ∃ c', c.push v = .running c' ∧ c'.ip = c.ip ∧ c'.get .rsp = c.get .rsp - 8 ∧
      (∀ q : Reg, q ≠ .rsp → c'.get q = c.get q) ∧
      c'.memory = c.memory.storeWord (c.get .rsp - 8) v := by
  have hw := (coversWord_iff _ _).mpr hc
  refine ⟨{ c.set .rsp (c.get .rsp - 8) with
      memory := c.memory.storeWord (c.get .rsp - 8) v }, ?_, ?_, ?_, fun q hq => ?_, rfl⟩
  · rw [push]
    dsimp only
    rw [storeWord_eq, memory_set, if_pos hw]
  · exact ip_set c .rsp (c.get .rsp - 8)
  · exact (get_set c .rsp .rsp (c.get .rsp - 8)).trans (if_pos rfl)
  · exact (get_set c .rsp q (c.get .rsp - 8)).trans (if_neg hq)

theorem execute_pop {c : Cpu} (hc : c.memory.Covers ⟨c.get .rsp, 8⟩)
    (k : UInt64 → Cpu → Outcome) :
    c.pop k = k (c.memory.loadWord (c.get .rsp)) (c.set .rsp (c.get .rsp + 8)) := by
  rw [pop]
  exact if_pos ((coversWord_iff _ _).mpr hc)

theorem execute_ret {c : Cpu} (hc : c.memory.Covers ⟨c.get .rsp, 8⟩) :
    ∃ c', c.execute .ret = .running c' ∧ c'.ip = c.memory.loadWord (c.get .rsp) ∧
      c'.get .rsp = c.get .rsp + 8 ∧ (∀ q : Reg, q ≠ .rsp → c'.get q = c.get q) ∧
      c'.memory = c.memory := by
  refine ⟨_, execute_pop hc fun target c => .running (c.jump target), ip_jump .., ?_,
    fun q hq => ?_, ?_⟩
  · rw [get_jump, get_set, if_pos rfl]
  · rw [get_jump, get_set, if_neg hq]
  · rw [memory_jump, memory_set]

theorem execute_callTo {c : Cpu} (hc : c.memory.Covers ⟨c.get .rsp - 8, 8⟩) (target : UInt64) :
    ∃ c', c.callTo target = .running c' ∧ c'.ip = target ∧ c'.get .rsp = c.get .rsp - 8 ∧
      (∀ q : Reg, q ≠ .rsp → c'.get q = c.get q) ∧
      c'.memory = c.memory.storeWord (c.get .rsp - 8) c.ip := by
  obtain ⟨c₁, hp, -, hrsp, hregs, hm⟩ := execute_push (v := c.ip) hc
  refine ⟨c₁.jump target, ?_, ip_jump .., ?_, fun q hq => ?_, ?_⟩
  · rw [callTo, hp]
  · rw [get_jump, hrsp]
  · rw [get_jump, hregs q hq]
  · rw [memory_jump, hm]

theorem execute_load {c : Cpu} {dst base : Reg} (hc : c.memory.Covers ⟨c.get base, 8⟩) :
    c.execute (.load dst base) = .running (c.set dst (c.memory.loadWord (c.get base))) :=
  if_pos ((coversWord_iff _ _).mpr hc)

theorem execute_store {c : Cpu} {base src : Reg} (hc : c.memory.Covers ⟨c.get base, 8⟩) :
    ∃ c', c.execute (.store base src) = .running c' ∧ (∀ q : Reg, c'.get q = c.get q) ∧
      c'.memory = c.memory.storeWord (c.get base) (c.get src) := by
  refine ⟨{ c with memory := c.memory.storeWord (c.get base) (c.get src) }, ?_, fun _ => rfl, rfl⟩
  rw [execute, storeWord_eq, if_pos ((coversWord_iff _ _).mpr hc)]

/-- Push some registers. -/
theorem follow_pushes {rs : List Reg} (hrs : ∀ r ∈ rs, r ≠ .rsp) {c : Cpu} {vs : List UInt64}
    (hs : c.memory.Stacked (c.get .rsp) vs) (hlen : 8 * (rs.length + vs.length) ≤ 2 ^ 64)
    (hc : c.memory.Covers ⟨c.get .rsp - (8 * rs.length).toUInt64, 8 * rs.length⟩) :
    ∃ c', c.follow (rs.map .push) = .running c' ∧
      c'.get .rsp = c.get .rsp - (8 * rs.length).toUInt64 ∧
      (∀ q : Reg, q ≠ .rsp → c'.get q = c.get q) ∧ c'.memory.shape = c.memory.shape ∧
      c'.memory.Stacked (c'.get .rsp) ((rs.map c.get).reverse ++ vs) ∧
      ∀ x, ¬ Has ⟨c.get .rsp - (8 * rs.length).toUInt64, 8 * rs.length⟩ x →
        c'.memory.load x = c.memory.load x := by
  induction rs generalizing c vs with
  | nil => exact ⟨c, rfl, by simp, fun _ _ => rfl, rfl, by simpa using hs, fun _ _ => rfl⟩
  | cons r rs ih =>
    rw [List.length_cons] at hc hlen ⊢
    have hword : Inside ⟨c.get .rsp - 8, 8⟩
        ⟨c.get .rsp - (8 * (rs.length + 1)).toUInt64, 8 * (rs.length + 1)⟩ :=
      inside_of_sub (c.get .rsp) (8 * (rs.length + 1)) 8 (by omega)
    rw [← sub_sub_words] at hc hword ⊢
    have hrest : Inside ⟨c.get .rsp - 8 - (8 * rs.length).toUInt64, 8 * rs.length⟩
        ⟨c.get .rsp - 8 - (8 * rs.length).toUInt64, 8 * (rs.length + 1)⟩ :=
      inside_of_le (by omega)
    obtain ⟨c₁, he, -, hrsp, hregs, hm⟩ :=
      @execute_push (c.skip (Instr.push r).size.toUInt64) (c.get r) (by simpa using hc.mono hword)
    simp only [get_skip, memory_skip] at hrsp hregs hm
    have hcov : c.memory.Covers ⟨c.get .rsp - 8, 8⟩ := hc.mono hword
    have hs₁ : c₁.memory.Stacked (c₁.get .rsp) (c.get r :: vs) := by
      rw [hrsp, hm]
      refine ⟨loadWord_storeWord hcov _, ?_⟩
      rw [UInt64.sub_add_cancel]
      have hapart : Apart ⟨c.get .rsp, 8 * vs.length⟩ ⟨c.get .rsp - 8, 8⟩ :=
        apart_of_sub (c.get .rsp) 8 (by omega)
      exact hs.congr fun x hx => load_storeWord _ _ (hapart x hx)
    have hc₁ : c₁.memory.Covers ⟨c₁.get .rsp - (8 * rs.length).toUInt64, 8 * rs.length⟩ := by
      rw [hrsp]
      exact (hc.mono hrest).of_shape (by rw [hm, shape_storeWord])
    obtain ⟨c', hf, hrsp', hregs', hshape, hstack, hload⟩ :=
      ih (fun q hq => hrs q (List.mem_cons_of_mem r hq)) hs₁ (by simp; omega) hc₁
    have hmap : rs.map c₁.get = rs.map c.get :=
      List.map_congr_left fun q hq => hregs q (hrs q (List.mem_cons_of_mem r hq))
    refine ⟨c', ?_, by rw [hrsp', hrsp], fun q hq => (hregs' q hq).trans (hregs q hq),
      by rw [hshape, hm, shape_storeWord], ?_, fun x hx => ?_⟩
    · rw [List.map_cons, follow]
      simp only [execute, get_skip, he]
      exact hf
    · rw [hmap] at hstack
      simpa using hstack
    · rw [hload x (by rw [hrsp]; exact fun h => hx (hrest x h)), hm,
        load_storeWord _ _ fun h => hx (hword x h)]

/-- Pop some registers. -/
theorem follow_pops {rs : List Reg} (hrs : ∀ r ∈ rs, r ≠ .rsp) (hn : rs.Nodup) {c : Cpu}
    {vs : List UInt64} (hl : vs.length = rs.length) (hs : c.memory.Stacked (c.get .rsp) vs)
    (hc : c.memory.Covers ⟨c.get .rsp, 8 * rs.length⟩) :
    ∃ c', c.follow (rs.map .pop) = .running c' ∧
      c'.get .rsp = c.get .rsp + (8 * rs.length).toUInt64 ∧ c'.memory = c.memory ∧
      (∀ q ∉ rs, q ≠ .rsp → c'.get q = c.get q) ∧ rs.map c'.get = vs := by
  induction rs generalizing c vs with
  | nil =>
    obtain rfl : vs = [] := List.length_eq_zero_iff.mp hl
    exact ⟨c, rfl, by simp, rfl, fun _ _ _ => rfl, rfl⟩
  | cons r rs ih =>
    cases vs with
    | nil => cases hl
    | cons v vs =>
      obtain ⟨hv, hs⟩ := hs
      rw [List.length_cons] at hc ⊢
      have hr : r ≠ .rsp := hrs r (List.mem_cons_self ..)
      have hpop := @execute_pop (c.skip (Instr.pop r).size.toUInt64)
        (by simpa using hc.mono inside_word) fun v c => .running (c.set r v)
      simp only [get_skip, memory_skip, hv] at hpop
      obtain ⟨c₁, hc₁⟩ : ∃ c₁, ((c.skip (Instr.pop r).size.toUInt64).set .rsp
          (c.get .rsp + 8)).set r v = c₁ := ⟨_, rfl⟩
      rw [hc₁] at hpop
      have hrsp : c₁.get .rsp = c.get .rsp + 8 := by
        rw [← hc₁]
        simp [get_set, hr.symm]
      have hm : c₁.memory = c.memory := by
        rw [← hc₁]
        simp
      have hget (q : Reg) (hq : q ≠ .rsp) : c₁.get q = if q = r then v else c.get q := by
        rw [← hc₁]
        simp [get_set, hq]
      obtain ⟨c', hf, hrsp', hm', hregs, hmap⟩ :=
        ih (fun q hq => hrs q (List.mem_cons_of_mem r hq)) (List.nodup_cons.mp hn).2
          (Nat.succ.inj hl) (by rw [hrsp, hm]; exact hs)
          (by rw [hrsp, hm]; exact hc.mono inside_rest)
      refine ⟨c', ?_, by rw [hrsp', hrsp, add_add_words], hm'.trans hm, fun q hq hne => ?_, ?_⟩
      · rw [List.map_cons, follow]
        simp only [execute, hpop]
        exact hf
      · rw [List.mem_cons, not_or] at hq
        rw [hregs q hq.2 hne, hget q hne, if_neg hq.1]
      · rw [List.map_cons, hmap, hregs r (List.nodup_cons.mp hn).1 hr, hget r hr, if_pos rfl]

end Cpu

end TapeLang.X86
