import TapeLang.Proofs.Native.Call
import TapeLang.Proofs.Tree.LabelCode
import TapeLang.Proofs.Tree.Parser

/-!
# The routine of a program

The fragments of a tree lie in the text as the tree lies in the machine, so that the routine does
what the tree does, provided that its reads and writes do.

* `Transfers`: reads and writes of a program follow what the tree says of them.
* `laid`: a tree in a text.
* `follows_called`: a called routine runs the tree and returns.
-/

namespace TapeLang.Native

open X86

variable {I : Interface} {S R σ : Type}

/-- After a failed transfer the machine is at the exit of the routine. -/
def AtFail (text : Text) (place : Target → Nat) (stopped : RunError → Cpu → S) (s : Cpu)
    (length : Nat) (e : RunError) (tape : Tape) (state : S) : Prop :=
  At text (stopped e) s length (place .fail) tape state

/-- The blocks of all reads and writes of `p` do what they should. -/
def Transfers (step : S → Action I S R) (d : Device I σ) (text : Text) (place : Target → Nat)
    (linkage : Linkage) (inj : Cpu → S) (stopped : RunError → Cpu → S) (io : Device byteStream σ)
    (canPeek : Bool) (p : Program) (s : Cpu) (length : Nat) : Prop :=
  ∀ (c : Command) (wrap : Wrap) (k index : Nat) (position : Option Position)
    (xs : List Instruction), c = .read ∨ c = .write → p.HasAt index (⟨c.op, position⟩ :: xs) →
    text.HasAt place k (Block.ofOperation linkage (c.operation wrap index)) →
    ∀ bound tape state world, At text inj s length k tape state →
      Follows step d (AtFail text place stopped s length) bound
        (At text inj s length
          (k + Fragment.sizes (Block.ofOperation linkage (c.operation wrap index))))
        state world (c.exec io canPeek bound position tape world)

variable {step : S → Action I S R} {d : Device I σ} {text : Text} {place : Target → Nat}
  {linkage : Linkage} {inj : Cpu → S} {stopped : RunError → Cpu → S} {io : Device byteStream σ}
  {canPeek : Bool} {p : Program}

section Body

variable {s : Cpu} {length : Nat} {wrap : Wrap}

variable (hr : Drives step text inj) (hg : Ground s length)
  (hwrap : Wrap.ofTapeLength length = .ok wrap)
  (ht : Transfers step d text place linkage inj stopped io canPeek p s length)
include hr hg hwrap ht

theorem follows_command {c : Command} {k index : Nat} {position : Option Position}
    {xs : List Instruction} (hred : c.Reduced length)
    (hp : p.HasAt index (⟨c.op, position⟩ :: xs))
    (hc : text.HasAt place k (Block.ofOperation linkage (c.operation wrap index)))
    (bound : Nat) (tape : Tape) (state : S) (world : σ)
    (hs : At text inj s length k tape state) :
    Follows step d (AtFail text place stopped s length) bound
      (At text inj s length
        (k + Fragment.sizes (Block.ofOperation linkage (c.operation wrap index))))
      state world (c.exec io canPeek bound position tape world) := by
  cases c with
  | move n =>
    obtain ⟨cpu, rfl, hip, hw⟩ := hs
    exact reaches_move hr hred hwrap hc hw hip world
  | add n =>
    obtain ⟨cpu, rfl, hip, hw⟩ := hs
    exact reaches_add hr hg hc hw hip world
  | reset =>
    obtain ⟨cpu, rfl, hip, hw⟩ := hs
    exact reaches_reset hr hg hc hw hip world
  | read => exact ht .read wrap k index position xs (.inl rfl) hp hc bound tape state world hs
  | write => exact ht .write wrap k index position xs (.inr rfl) hp hc bound tape state world hs

/-- Where the text has the fragments of a tree, the tree is laid out. -/
theorem laid (t : Tree) {k index fresh : Nat} (hred : t.Reduced length)
    (hp : p.HasAt index t.flatten)
    (hc : text.HasAt place k (t.fragments linkage wrap index fresh)) :
    Laid step d (AtFail text place stopped s length) io canPeek (At text inj s length) t k
      (k + Fragment.sizes (t.fragments linkage wrap index fresh)) := by
  induction t generalizing k index fresh with
  | nil => exact .nil k
  | command c position rest ih =>
    rw [Tree.fragments_command, Text.hasAt_append] at hc
    have hrest := ih hred.2 hp.tail hc.2
    rw [Nat.add_assoc, ← Fragment.sizes_append, ← Tree.fragments_command] at hrest
    exact .command (follows_command hr hg hwrap ht hred.1 hp hc.1) hrest
  | loop opening closing body rest ihb ihr =>
    rw [Tree.fragments_loop] at hc
    obtain ⟨htop, hc⟩ := hc
    rw [Text.hasAt_append] at hc
    obtain ⟨htest, hc⟩ := hc
    rw [Text.hasAt_append] at hc
    obtain ⟨hbody, hjump, hbehind, hrest⟩ := hc
    have hback : text.HasAt place _ [.branch .jump (.label fresh)] := ⟨hjump, trivial⟩
    have htests := tests_branch (d := d) hr hg htest
    have hconnects : Connects step d (At text inj s length _) (At text inj s length _) :=
      connects_jump hr hback
    have hlaid := ihr hred.2 hp.tail.right.tail hrest
    rw [hbehind] at htests
    rw [htop] at hconnects
    have hend : k + Fragment.sizes (Block.ofOperation linkage (.branchIfZero (fresh + 1))) +
        Fragment.sizes (body.fragments linkage wrap (index + 1) (fresh + 2)) +
        (Fragment.branch .jump (.label fresh)).size +
        Fragment.sizes (rest.fragments linkage wrap (index + 1 + body.flatten.length + 1)
          (fresh + 2 + 2 * body.loops)) =
        k + Fragment.sizes ((Tree.loop opening closing body rest).fragments linkage wrap index
          fresh) := by
      simp only [Tree.fragments_loop, Fragment.sizes_cons, Fragment.sizes_append, Fragment.size]
      omega
    rw [hend] at hlaid
    exact .loop (fun _ _ hs => hs) htests (ihb hred.1 hp.tail.left hbody) hconnects hlaid

end Body

/-! ## A whole call -/

/-- The machine is back at the caller of a routine that was called in `c`. -/
def Back (inj : Cpu → S) (c : Cpu) (length : Nat) (status : UInt64) (tape : Tape) (state : S) :
    Prop :=
  ∃ c', state = inj c' ∧ Returned c length tape status c'

/-- A routine that has been called runs the tree of its program and returns to its caller. -/
theorem follows_called {t : Tree} {wrap : Wrap} {c : Cpu} {tape : Tape} {k : Nat}
    (hr : Drives step text inj) (hrs : ∀ e, Drives step text (stopped e))
    (hp : t.flatten = p.instructions.toList) (hred : t.Reduced tape.length)
    (hwrap : Wrap.ofTapeLength tape.length = .ok wrap)
    (hc : text.HasAt place k (t.routine linkage wrap))
    (ht : ∀ s, Entered c s → Ground s tape.length →
      Transfers step d text place linkage inj stopped io canPeek p s tape.length)
    (h : Called c tape) (hip : c.ip = text.address k) (bound : Nat) (world : σ) :
    Follows step d (fun e => Back (stopped e) c tape.length 1) bound (Back inj c tape.length 0)
      (inj c) world (t.exec io canPeek bound tape world) := by
  rw [Tree.routine, Text.hasAt_append, Text.hasAt_append] at hc
  obtain ⟨hpro, hbody, hepi⟩ := hc
  obtain ⟨s, hf, he, hg, hw⟩ := exists_prologue h
  obtain ⟨hopen, hip₁⟩ := exists_follow (d := d) hr hpro (by simp [Instr.IsStraight]) hip hf world
  rw [← Fragment.sizes_plain] at hip₁
  have hlaid := laid hr hg hwrap (ht s he hg) t hred (.of_eq hp) hbody
  have hfollows := hlaid.follows bound tape (inj s) world ⟨s, rfl, hip₁, hw⟩
  refine ((hfollows.onward ?_ ?_).after hopen).mono (Nat.le_add_left _ _)
  · rintro tape' _ world' ⟨b, rfl, hipb, hwb⟩
    obtain ⟨n, b', hreach, hret⟩ := reaches_epilogue hr h he hepi hipb hwb world'
    exact ⟨n, inj b', hreach, b', rfl, hret⟩
  · rintro e tape' _ world' ⟨b, rfl, hipb, hwb⟩
    obtain ⟨n, b', hreach, hret⟩ := reaches_fail (hrs e) h he hepi hipb hwb world'
    exact ⟨n, stopped e b', hreach, b', rfl, hret⟩

end TapeLang.Native
