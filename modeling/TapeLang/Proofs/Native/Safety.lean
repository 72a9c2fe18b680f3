import Mathlib.Logic.Relation
import TapeLang.Proofs.Native.Hook
import TapeLang.Proofs.X86.Writes

/-!
# What a routine may do

A routine in another process shares it with everything else that runs there. What it may do is said
of each state that it can get to, whatever its hooks do as long as they keep what a called routine
has to keep: where it may be, which bytes it may have for operands, where it may write, how it may
call its hooks, and what it has to leave behind.

That a routine is safe for ever follows if its next `n` moves are safe for all `n`. This is shown by
induction on `n` and, within it, from the end of the code to its start: what is further ahead is
safe for as many moves, what is behind for fewer.

* `Routine.Moves`, `Routine.Path`: what a routine and its hooks can do.
* `Routine.Safe`: what is required of a state; `Routine.Secure`: also of the next `n` moves.
* `Routine.safe_of_secure`: a routine that is secure for all `n` is safe for ever.
* `Routine.Guards`: the states of which it is known that they are secure, offset by offset, with one
  rule for each kind of code.
-/

namespace TapeLang.Routine

open X86 Native Span

/-! ## Moves -/

/-- The processor is at a hook. -/
def AtHook (r : Routine) (c : Cpu) : Prop := c.ip = r.host.readHook ∨ c.ip = r.host.writeHook

/-- The part of the stack that a routine has for itself if it was called in `e`. -/
def ownFrame (e : Cpu) : Span := ⟨e.get .rsp - 48, 48⟩

/-- What a routine that was called in `e` needs to get back: the registers that it has saved, and the
address it returns to. -/
def savedFrame (e : Cpu) : Span := ⟨e.get .rsp - 40, 48⟩

/-- A hook has been called by a routine that was called in `e`: right below the frame of the routine,
with the stack aligned, and with the context that the routine was given. -/
structure HookCalled (e c : Cpu) : Prop where
  top : c.get .rsp = e.get .rsp - 48
  aligned : (c.get .rsp + 8).toNat % 16 = 0
  context : c.get .rdi = e.get .rdx

/-- A hook that was called in `c` returns in `c'`. It has kept the registers that belong to its
caller and what its caller has on the stack, and no byte has gone; everything else may have
changed. -/
structure HookReturns (e c c' : Cpu) : Prop where
  ip : c'.ip = c.memory.loadWord (c.get .rsp)
  top : c'.get .rsp = c.get .rsp + 8
  registers : ∀ q : Reg, q.isCalleeSaved → q ≠ .rsp → c'.get q = c.get q
  covers : ∀ x, c.memory.covers x → c'.memory.covers x
  stack : ∀ x, (savedFrame e).Has x → c'.memory.load x = c.memory.load x

/-- One instruction of a routine that was called in `e`, or a whole hook. -/
inductive Moves (r : Routine) (e : Cpu) : Cpu → Cpu → Prop
  | instr {c c' : Cpu} {i : Instr} {n : Nat} : r.text.fetch? c.ip = some (i, n) →
    (c.skip n.toUInt64).execute i = .running c' → r.Moves e c c'
  | hook {c c' : Cpu} : r.AtHook c → HookReturns e c c' → r.Moves e c c'

/-- The routine can get from `b` to `c`. -/
def Path (r : Routine) (e b c : Cpu) : Prop := Relation.ReflTransGen (r.Moves e) b c

/-! ## Safety -/

/-- The routine has been called, with a pointer inside the tape, by a caller that keeps the stack
aligned. -/
structure Invoked (r : Routine) (e : Cpu) : Prop where
  ip : e.ip = r.host.text
  back : e.memory.loadWord (e.get .rsp) = r.host.back
  aligned : (e.get .rsp + 8).toNat % 16 = 0
  pointer : (e.memory.loadWord (e.get .rsi)).toNat < r.tapeLength
  covers_tape : e.memory.Covers ⟨e.get .rdi, r.tapeLength⟩
  covers_pointer : e.memory.Covers ⟨e.get .rsi, 8⟩
  covers_frame : e.memory.Covers (frame e)
  tape_frame : Apart ⟨e.get .rdi, r.tapeLength⟩ (frame e)
  pointer_frame : Apart ⟨e.get .rsi, 8⟩ (frame e)

/-- The instruction `i` stays where it may be: its operand is the cell that the pointer, which is
inside the tape, points at, it writes to the tape, to the word with the pointer or to the routine's
part of the stack, and it calls nothing but hooks, with the stack aligned. -/
structure Confined (r : Routine) (e c : Cpu) (i : Instr) : Prop where
  cell : ∀ m, i.mem? = some m →
    c.address m = e.get .rdi + c.get .r12 ∧ (c.get .r12).toNat < r.tapeLength
  writes : ∀ s, c.written i = some s →
    s.Inside ⟨e.get .rdi, r.tapeLength⟩ ∨ s.Inside ⟨e.get .rsi, 8⟩ ∨ s.Inside (ownFrame e)
  calls : ∀ q, i = .callReg q → (c.get .rsp).toNat % 16 = 0 ∧
    (c.get q = r.host.readHook ∨ c.get q = r.host.writeHook)

/-- The routine has got back to its caller. The pointer it leaves is that of the last state of its
body, in which it was about to write it back. -/
structure Left (r : Routine) (e c : Cpu) : Prop where
  registers : ∀ q : Reg, q.isCalleeSaved → q ≠ .rsp → c.get q = e.get q
  top : c.get .rsp = e.get .rsp + 8
  status : c.get .rax = 0 ∨ c.get .rax = 1
  pointer : ∃ b n, r.Path e e b ∧ r.Path e b c ∧
    r.text.fetch? b.ip = some (.store .r14 .r12, n) ∧
    c.memory.loadWord (e.get .rsi) = b.get .r12 ∧ (b.get .r12).toNat < r.tapeLength

/-- What is required of a state of a routine that was called in `e`. -/
structure Safe (r : Routine) (e c : Cpu) : Prop where
  place : c.ip = r.host.back ∨ r.AtHook c ∨ ∃ k i, r.text.Boundary k ∧ c.ip = r.text.address k ∧
    r.text.fetch? c.ip = some i
  instr : ∀ i n, r.text.fetch? c.ip = some (i, n) →
    (∃ c', (c.skip n.toUInt64).execute i = .running c') ∧ r.Confined e c i
  hook : r.AtHook c → HookCalled e c
  back : c.ip = r.host.back → r.Left e c

/-- In a safe state the next instruction changes nothing but the tape, the word with the pointer and
the routine's part of the stack. -/
theorem Safe.load_eq {r : Routine} {e c c' : Cpu} (h : r.Safe e c) {i : Instr} {n : Nat}
    (hf : r.text.fetch? c.ip = some (i, n)) (he : (c.skip n.toUInt64).execute i = .running c')
    {x : UInt64} (ht : ¬ Has ⟨e.get .rdi, r.tapeLength⟩ x) (hp : ¬ Has ⟨e.get .rsi, 8⟩ x)
    (ho : ¬ (ownFrame e).Has x) : c'.memory.load x = c.memory.load x := by
  have hkept := Cpu.kept_execute he
  rw [Cpu.written_skip, Cpu.memory_skip] at hkept
  refine hkept.load x fun s hs hx => ?_
  rcases (h.instr i n hf).2.writes s hs with hin | hin | hin
  · exact ht (hin x hx)
  · exact hp (hin x hx)
  · exact ho (hin x hx)

/-- The state is safe, and so is what the next `n - 1` moves lead to. -/
def Secure (r : Routine) (e : Cpu) : Nat → Cpu → Prop
  | 0, _ => True
  | n + 1, c => r.Safe e c ∧ ∀ c', r.Moves e c c' → r.Secure e n c'

variable {r : Routine} {e b c c' : Cpu} {n m k k' : Nat}

theorem Secure.mono (h : r.Secure e n c) (hm : m ≤ n) : r.Secure e m c := by
  induction m generalizing n c with
  | zero => trivial
  | succ m ih =>
    cases n with
    | zero => omega
    | succ n => exact ⟨h.1, fun c' hc => ih (h.2 c' hc) (by omega)⟩

/-- A state that is secure for any number of moves leads to safe states only. -/
theorem safe_of_secure (h : ∀ n, r.Secure e n b) (hp : r.Path e b c) : r.Safe e c := by
  induction hp using Relation.ReflTransGen.head_induction_on with
  | refl => exact (h 1).1
  | head hm _ ih => exact ih fun n => (h (n + 1)).2 _ hm

/-! ## Single states -/

section Single

variable (hl : r.Linked)
include hl

theorem not_atHook_of_fetch {i : Instr × Nat} (h : r.text.fetch? c.ip = some i) : ¬ r.AtHook c := by
  rintro (hip | hip)
  · rw [hip, hl.readHook] at h
    cases h
  · rw [hip, hl.writeHook] at h
    cases h

theorem ne_back_of_fetch {i : Instr × Nat} (h : r.text.fetch? c.ip = some i) :
    c.ip ≠ r.host.back := by
  intro hip
  rw [hip, hl.back] at h
  cases h

theorem fetch_of_atHook (h : r.AtHook c) : r.text.fetch? c.ip = none := by
  rcases h with hip | hip
  · rw [hip, hl.readHook]
  · rw [hip, hl.writeHook]

/-- An instruction can be carried out, and what follows is secure. -/
theorem secure_instr {i : Instr} {size : Nat} (hk : r.text.Boundary k)
    (hip : c.ip = r.text.address k)
    (hf : r.text.fetch? (r.text.address k) = some (i, size)) (hi : r.Confined e c i)
    (he : (c.skip size.toUInt64).execute i = .running c')
    (next : ∀ m < n, r.Moves e c c' → r.Secure e m c') : r.Secure e n c := by
  rw [← hip] at hf
  cases n with
  | zero => trivial
  | succ n =>
    refine ⟨⟨.inr (.inr ⟨k, _, hk, hip, hf⟩), fun j m hj => ?_,
      fun h => absurd h (not_atHook_of_fetch hl hf), fun h => absurd h (ne_back_of_fetch hl hf)⟩,
      fun c'' hmove => ?_⟩
    · rw [hf] at hj
      cases hj
      exact ⟨⟨c', he⟩, hi⟩
    · cases hmove with
      | instr hf' he' =>
        rw [hf] at hf'
        cases hf'
        rw [he] at he'
        cases he'
        exact next n (Nat.lt_succ_self n) (.instr hf he)
      | hook h => exact absurd h (not_atHook_of_fetch hl hf)

/-- A hook may do what it likes, within what it has to keep. -/
theorem secure_hook (h : r.AtHook c) (hcalled : HookCalled e c)
    (next : ∀ m < n, ∀ c', r.Moves e c c' → HookReturns e c c' → r.Secure e m c') :
    r.Secure e n c := by
  have hf := fetch_of_atHook hl h
  cases n with
  | zero => trivial
  | succ n =>
    refine ⟨⟨.inr (.inl h), fun j m hj => ?_, fun _ => hcalled, fun hip => ?_⟩, fun c' hmove => ?_⟩
    · rw [hf] at hj
      cases hj
    · rcases h with h | h
      · exact absurd (h.symm.trans hip) hl.readHook_ne_back
      · exact absurd (h.symm.trans hip) hl.writeHook_ne_back
    · cases hmove with
      | instr hf' _ =>
        rw [hf] at hf'
        cases hf'
      | hook h hret => exact next n (Nat.lt_succ_self n) c' (.hook h hret) hret

/-- Nothing follows the return. -/
theorem secure_back (hip : c.ip = r.host.back) (h : r.Left e c) : r.Secure e n c := by
  have hf : r.text.fetch? c.ip = none := hip ▸ hl.back
  have hhook : ¬ r.AtHook c := by
    rintro (hh | hh)
    · exact hl.readHook_ne_back (hh.symm.trans hip)
    · exact hl.writeHook_ne_back (hh.symm.trans hip)
  cases n with
  | zero => trivial
  | succ n =>
    refine ⟨⟨.inl hip, fun j m hj => ?_, fun hh => absurd hh hhook, fun _ => h⟩, fun c' hmove => ?_⟩
    · rw [hf] at hj
      cases hj
    · cases hmove with
      | instr hf' _ =>
        rw [hf] at hf'
        cases hf'
      | hook hh => exact absurd hh hhook

end Single

/-! ## Offsets -/

/-- At offset `k`, which was got to from `b`, all states of `A` are secure. -/
def Guards (r : Routine) (e b : Cpu) (n k : Nat) (A : Cpu → Prop) : Prop :=
  ∀ c, r.Path e b c → c.ip = r.text.address k → A c → r.Secure e n c

/-- The same for less than `n` moves. This is all that is known of what is behind. -/
def GuardsBelow (r : Routine) (e b : Cpu) (n k : Nat) (A : Cpu → Prop) : Prop :=
  ∀ m < n, r.Guards e b m k A

variable {A B D : Cpu → Prop} {place : Target → Nat}

theorem Guards.mono (h : r.Guards e b n k A) (hm : m ≤ n) : r.Guards e b m k A :=
  fun c hp hip hc => (h c hp hip hc).mono hm

theorem Guards.below (h : r.Guards e b n k A) : r.GuardsBelow e b n k A :=
  fun _ hm => h.mono (Nat.le_of_lt hm)

/-! ## Straight code -/

theorem Confined.of_isQuiet {i : Instr} (hi : i.isQuiet) : r.Confined e c i := by
  refine ⟨fun m hm => ?_, fun s hs => ?_, fun q hq => ?_⟩
  · rw [Instr.mem?_of_isQuiet hi] at hm
    cases hm
  · rw [Cpu.written_of_isQuiet hi] at hs
    cases hs
  · rw [hq] at hi
    cases hi

/-- Instructions are carried out one behind the other, each of them confined, and end in `B`. -/
def Runs (r : Routine) (e : Cpu) (B : Cpu → Prop) : List Instr → Cpu → Prop
  | [], c => B c
  | i :: rest, c =>
    r.Confined e c i ∧ ∃ c', (c.skip i.size.toUInt64).execute i = .running c' ∧ r.Runs e B rest c'

theorem runs_append {code more : List Instr} :
    r.Runs e B (code ++ more) c ↔ r.Runs e (r.Runs e B more) code c := by
  induction code generalizing c with
  | nil => exact .rfl
  | cons i rest ih => simp only [List.cons_append, Runs, ih]

theorem Runs.mono {code : List Instr} (h : r.Runs e B code c) (hB : ∀ c, B c → D c) :
    r.Runs e D code c := by
  induction code generalizing c with
  | nil => exact hB c h
  | cons i rest ih =>
    obtain ⟨hi, c', he, hrest⟩ := h
    exact ⟨hi, c', he, ih hrest⟩

theorem runs_of_follow {code : List Instr} (hq : code.all Instr.isQuiet = true)
    (hf : c.follow code = .running c') (hB : B c') : r.Runs e B code c := by
  induction code generalizing c with
  | nil =>
    cases hf
    exact hB
  | cons i rest ih =>
    rw [List.all_cons, Bool.and_eq_true] at hq
    unfold Cpu.follow at hf
    split at hf
    case h_1 c₁ he => exact ⟨.of_isQuiet hq.1, c₁, he, ih hq.2 hf⟩
    case h_2 hne => exact absurd hf (hne c')

section Rules

variable (hl : r.Linked) (hk : r.text.Boundary k)
include hl hk

theorem guards_straight {code : List Instr} (hs : ∀ i ∈ code, i.IsStraight)
    (hc : r.text.HasAt place k (Block.plain code)) (h : ∀ c, A c → r.Runs e B code c)
    (next : r.Guards e b n (k + codeSize code) B) : r.Guards e b n k A := by
  induction code generalizing k A with
  | nil => exact fun c hp hip hA => next c hp hip (h c hA)
  | cons i rest ih =>
    rw [codeSize_cons, ← Nat.add_assoc] at next
    have hrest := ih (hk.next hc.1) (fun j hj => hs j (List.mem_cons_of_mem i hj)) hc.2
      (fun _ hc => hc) next
    intro c hp hip hA
    obtain ⟨hi, c', he, hruns⟩ := h c hA
    refine secure_instr hl hk hip hc.1 hi he fun m hm hmove => ?_
    refine hrest.mono (Nat.le_of_lt hm) c' (hp.tail hmove) ?_ hruns
    rw [Cpu.ip_execute (hs i (List.mem_cons_self ..)) he, Cpu.ip_skip, hip, Text.address_add]

theorem guards_jump {t : Target} {rest : List Fragment}
    (hc : r.text.HasAt place k (.branch .jump t :: rest)) (hA : ∀ c a, A c → A (c.jump a))
    (next : r.GuardsBelow e b n (place t) A) : r.Guards e b n k A := by
  intro c hp hip hcA
  obtain ⟨dist, size, hf, he⟩ := exists_execute_jump hip hc
  exact secure_instr hl hk hip hf (.of_isQuiet rfl) he fun m hm hmove =>
    next m hm _ (hp.tail hmove) (Cpu.ip_jump ..) (hA c _ hcA)

/-- A jump back over `skipped`. -/
theorem guards_jumpBack {skipped : List Instr} (hs : codeSize skipped < 2 ^ 30)
    (hk' : k' + codeSize skipped = k) {rest : List Fragment}
    (hc : r.text.HasAt place k (.instr (Block.jumpBack skipped) :: rest))
    (hA : ∀ c a, A c → A (c.skip a)) (next : r.GuardsBelow e b n k' A) : r.Guards e b n k A := by
  intro c hp hip hcA
  obtain ⟨dist, hjump, haddress⟩ := r.text.address_jumpBack k' hs
  rw [hjump] at hc haddress
  refine secure_instr hl hk hip hc.1 (.of_isQuiet rfl) rfl fun m hm hmove =>
    next m hm _ (hp.tail hmove) ?_ (hA _ _ (hA c _ hcA))
  rw [Cpu.ip_skip, Cpu.ip_skip, hip, ← hk']
  exact haddress

theorem guards_jumpIf {cond : Cond} {t : Target} {rest : List Fragment}
    (hc : r.text.HasAt place k (.branch (.jumpIf cond) t :: rest))
    (hA : ∀ c a, A c → A (c.jump a)) (taken : r.GuardsBelow e b n (place t) A)
    (next : r.Guards e b n (k + (Fragment.branch (.jumpIf cond) t).size) A) :
    r.Guards e b n k A := by
  intro c hp hip hcA
  obtain ⟨dist, size, hf, he⟩ := exists_execute_jumpIf hip hc
  refine secure_instr hl hk hip hf (.of_isQuiet rfl) he fun m hm hmove => ?_
  by_cases h : c.flags.holds cond
  · exact taken m hm _ (hp.tail hmove) (by rw [Cpu.ip_jump, if_pos h]) (hA c _ hcA)
  · exact next.below m hm _ (hp.tail hmove) (by rw [Cpu.ip_jump, if_neg h]) (hA c _ hcA)

/-- What is known where a short branch leads may differ from what is known behind it. -/
theorem guards_jumpShort {cond : Cond} {dist : Int8} {rest : List Fragment}
    (hc : r.text.HasAt place k (.instr (.jumpShort cond dist) :: rest))
    (hd : r.text.address (k + 2) + signed8 dist = r.text.address k')
    (htaken : ∀ c a, A c → c.flags.holds cond → B (c.jump a))
    (hnot : ∀ c a, A c → ¬ c.flags.holds cond → D (c.jump a))
    (taken : r.Guards e b n k' B) (next : r.Guards e b n (k + 2) D) : r.Guards e b n k A := by
  intro c hp hip hcA
  refine secure_instr hl hk hip hc.1 (.of_isQuiet rfl) (execute_jumpShort hip dist)
    fun m hm hmove => ?_
  by_cases h : c.flags.holds cond
  · exact taken.below m hm _ (hp.tail hmove) (by rw [Cpu.ip_jump, if_pos h, hd])
      (htaken c _ hcA h)
  · exact next.below m hm _ (hp.tail hmove) (by rw [Cpu.ip_jump, if_neg h]) (hnot c _ hcA h)

end Rules

end TapeLang.Routine
