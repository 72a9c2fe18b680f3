import TapeLang.Proofs.Tree.Semantics

/-!
# Trees that do the same

Two trees are alike on tapes of one length if they do the same to each such tape, beside every
device, once the bound suffices for the 256 tests of a loop that counts a cell down to zero.

* `Alike.append`, `Alike.loop`: parts may be replaced by parts that are alike.
* `alike_idle`, `alike_moves`, `alike_adds`, `alike_clear`: the rules by which a program is made
  shorter.
-/

namespace TapeLang

namespace Tape

theorem ext_cells {t u : Tape} (hc : t.cells = u.cells) (hp : t.pointer = u.pointer) : t = u := by
  obtain ⟨tc, tp, _⟩ := t
  obtain ⟨uc, up, _⟩ := u
  obtain rfl : tc = uc := hc
  obtain rfl : tp = up := hp
  rfl

theorem set_get (t : Tape) : t.set t.get = t := by
  refine ext_cells (Cells.ext_get rfl fun i _ hi => ?_) rfl
  simp only [set, Cells.get_set]
  split
  case isTrue h =>
    subst h
    rfl
  case isFalse => rfl

theorem set_set (t : Tape) (v w : UInt8) : (t.set v).set w = t.set w := by
  refine ext_cells (Cells.ext_get rfl fun i _ hi => ?_) rfl
  simp only [set, Cells.get_set]
  split <;> rfl

theorem advance_congr (t : Tape) {m n : Nat} (h : m % t.length = n % t.length) :
    t.advance m = t.advance n := by
  refine ext_cells (by simp) ?_
  rw [pointer_advance, pointer_advance, Nat.add_mod, h, ← Nat.add_mod]

theorem advance_advance (t : Tape) (m n : Nat) : (t.advance m).advance n = t.advance (m + n) := by
  refine ext_cells (by simp) ?_
  rw [pointer_advance, pointer_advance, pointer_advance, length_advance, Nat.mod_add_mod,
    Nat.add_assoc]

theorem advance_zero (t : Tape) : t.advance 0 = t :=
  ext_cells (by simp) (by rw [pointer_advance]; exact Nat.mod_eq_of_lt t.pointer_lt)

theorem add_zero (t : Tape) : t.add 0 = t := by
  rw [add, UInt8.add_zero, set_get]

theorem add_add (t : Tape) (v w : UInt8) : (t.add v).add w = t.add (v + w) := by
  simp only [add, get_set, set_set, UInt8.add_assoc]

end Tape

namespace Tree

/-- On every tape of `length` cells, both do the same. -/
def Alike (length : Nat) (t u : Tree) : Prop :=
  ∀ (σ : Type) (d : Device byteStream σ) (canPeek : Bool) (bound : Nat) (tape : Tape) (world : σ),
    256 ≤ bound → tape.length = length →
    t.exec d canPeek bound tape world = u.exec d canPeek bound tape world

namespace Alike

variable {length : Nat} {t t' u u' v : Tree}

theorem refl (t : Tree) : Alike length t t := fun _ _ _ _ _ _ _ _ => rfl

theorem symm (h : Alike length t u) : Alike length u t :=
  fun σ d canPeek bound tape world hb hl => (h σ d canPeek bound tape world hb hl).symm

theorem trans (h : Alike length t u) (h' : Alike length u v) : Alike length t v :=
  fun σ d canPeek bound tape world hb hl =>
    (h σ d canPeek bound tape world hb hl).trans (h' σ d canPeek bound tape world hb hl)

theorem append (ht : Alike length t t') (hu : Alike length u u') :
    Alike length (t ++ u) (t' ++ u') := by
  intro σ d canPeek bound tape world hb hl
  rw [exec_append, exec_append, ht σ d canPeek bound tape world hb hl]
  exact (t'.hasLength_exec hl world).andThen_congr fun tape world hl =>
    hu σ d canPeek bound tape world hb hl

theorem loop {o c o' c' : Option Position} (h : Alike length t u) :
    Alike length (.loop o c t .nil) (.loop o' c' u .nil) := by
  intro σ d canPeek bound tape world hb hl
  have hw (rounds : Nat) (tape : Tape) (world : σ) (hl : tape.length = length) :
      whileNonzero (t.exec d canPeek bound) rounds tape world =
        whileNonzero (u.exec d canPeek bound) rounds tape world := by
    induction rounds generalizing tape world with
    | zero => rfl
    | succ rounds ih =>
      simp only [whileNonzero, h σ d canPeek bound tape world hb hl]
      split
      · rfl
      · exact (u.hasLength_exec hl world).andThen_congr ih
  simp only [exec, hw bound tape world hl]

end Alike

/-! ## Rules -/

variable {length : Nat}

theorem alike_idle {c : Command} (hc : c.op.isIdle) (p : Option Position) :
    Alike length (command c p nil) nil := by
  intro σ d canPeek bound tape world _ _
  cases c with
  | move n =>
    obtain rfl : n = 0 := by simpa [Command.op, Op.isIdle, Op.count] using hc
    simp only [exec, Command.exec, Passage.andThen, tape.advance_zero]
  | add n =>
    obtain rfl : n = 0 := by simpa [Command.op, Op.isIdle, Op.count] using hc
    simp only [exec, Command.exec, Passage.andThen]
    exact congrArg (Passage.through · world) tape.add_zero
  | reset => simp [Command.op, Op.isIdle, Op.count] at hc
  | read => simp [Command.op, Op.isIdle, Op.count] at hc
  | write => simp [Command.op, Op.isIdle, Op.count] at hc

/-- On a circular tape only the remainder of a move counts. -/
theorem alike_move {m n : Nat} (h : m % length = n % length) (p q : Option Position) :
    Alike length (command (.move m) p nil) (command (.move n) q nil) := by
  rintro σ d canPeek bound tape world _ rfl
  simp only [exec, Command.exec, Passage.andThen, tape.advance_congr h]

theorem alike_moves (m n : Nat) (p q r : Option Position) :
    Alike length (command (.move m) p (command (.move n) q nil))
      (command (.move (m + n)) r nil) := by
  intro σ d canPeek bound tape world _ _
  simp only [exec, Command.exec, Passage.andThen, tape.advance_advance]

theorem toUInt8_congr {m n : Nat} (h : m % cellModulus = n % cellModulus) :
    m.toUInt8 = n.toUInt8 := by
  apply UInt8.toNat_inj.mp
  simpa [cellModulus] using h

theorem alike_add {m n : Nat} (h : m % cellModulus = n % cellModulus) (p q : Option Position) :
    Alike length (command (.add m) p nil) (command (.add n) q nil) := by
  intro σ d canPeek bound tape world _ _
  simp only [exec, Command.exec, Passage.andThen, toUInt8_congr h]

theorem alike_adds (m n : Nat) (p q r : Option Position) :
    Alike length (command (.add m) p (command (.add n) q nil)) (command (.add (m + n)) r nil) := by
  intro σ d canPeek bound tape world _ _
  have h : m.toUInt8 + n.toUInt8 = (m + n).toUInt8 := (UInt8.ofNat_add m n).symm
  simp only [exec, Command.exec, Passage.andThen, tape.add_add, h]

/-- A loop that adds `v` to its cell clears it if the additions lead down to zero. The measure bounds
the number of rounds that are left. -/
theorem whileNonzero_add {σ : Type} {v : UInt8} (left : UInt8 → Nat)
    (hv : ∀ x, x ≠ 0 → left (x + v) < left x) (rounds : Nat) (tape : Tape) (world : σ)
    (h : left tape.get < rounds) :
    whileNonzero (fun tape world => .through (tape.add v) world) rounds tape world =
      .through (tape.set 0) world := by
  induction rounds generalizing tape with
  | zero => omega
  | succ rounds ih =>
    unfold whileNonzero
    split
    case isTrue hz => rw [← hz, tape.set_get]
    case isFalse hz =>
      have hadd : (tape.add v).get = tape.get + v := by simp [Tape.add]
      have := hv tape.get hz
      rw [Passage.andThen, ih (tape.add v) (by rw [hadd]; omega), Tape.add, Tape.set_set]

theorem alike_clear {n : Nat} (hn : (Op.add n).isUnitAdd) (o c p q : Option Position) :
    Alike length (loop o c (command (.add n) p nil) nil) (command .reset q nil) := by
  intro σ d canPeek bound tape world hb _
  simp only [exec, Command.exec, Passage.andThen]
  have hn : n = 1 ∨ n = 255 := by simpa [Op.isUnitAdd, cellModulus] using hn
  rcases hn with rfl | rfl
  · have hdown (x : UInt8) (hx : x ≠ 0) : (0 - (x + 1)).toNat < (0 - x).toNat := by
      have : x.toNat ≠ 0 := fun h => hx (UInt8.toNat_inj.mp h)
      have := x.toNat_lt
      simp only [UInt8.toNat_sub, UInt8.toNat_add, UInt8.reduceToNat]
      omega
    have hlt := (0 - tape.get).toNat_lt
    exact congrArg (Passage.andThen · _)
      (whileNonzero_add (fun x => (0 - x).toNat) hdown bound tape world (by omega))
  · have hdown (x : UInt8) (hx : x ≠ 0) : (x + 255).toNat < x.toNat := by
      have : x.toNat ≠ 0 := fun h => hx (UInt8.toNat_inj.mp h)
      have := x.toNat_lt
      simp only [UInt8.toNat_add, UInt8.reduceToNat]
      omega
    have hlt := tape.get.toNat_lt
    exact congrArg (Passage.andThen · _)
      (whileNonzero_add UInt8.toNat hdown bound tape world (by omega))

end Tree

end TapeLang
