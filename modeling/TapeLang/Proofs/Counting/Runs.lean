import TapeLang.Proofs.Counting.Sites
import TapeLang.Proofs.Streams.Bytes
import TapeLang.Proofs.Symmetry.Tape
import TapeLang.Proofs.Tree.Surroundings

/-!
# Counted loops end

Beside streams that answer every request at once, a program whose loops are counted comes to its
end, or to a read behind the end of the input. A pass of a loop takes one from its counter and leaves
the counters of the loops around it as they are, so that 256 tests are enough for every loop.

* `Willing`: streams that answer at once, and never fail.
* `Passage.Comes`: a passage comes through, or stops for want of input.
* `Site.Stands`, `Site.worth`: where the pointer is at a site, and what the counters there are worth.
* `Site.Walks.comes`: what a tree does between two sites.
-/

namespace TapeLang

variable {σ : Type} {d : Device byteStream σ} {canPeek : Bool} {bound : Nat} {tape : Tape}

/-! ## Streams -/

/-- Every request is answered at once, by a byte or the end of the input, and every byte is taken. -/
structure Willing (d : Device byteStream σ) : Prop where
  peek : ∀ w, (d .peek w).1 = .ok .ready ∨ (d .peek w).1 = .ok .closed
  next : ∀ w, ∃ byte?, (d .next w).1 = .ok byte?
  put : ∀ byte w, (d (.put byte) w).1 = .ok true
  flush : ∀ w, (d .flush w).1 = .ok ()

/-- An output that never fails. -/
structure Sink.Reliable {τ : Type} (sink : Sink τ) : Prop where
  put : ∀ byte w, (sink.put byte w).1 = .ok true
  flush : ∀ w, (sink.flush w).1 = .ok ()

theorem reliable_collecting : collecting.Reliable := ⟨fun _ _ => rfl, fun _ => rfl⟩

theorem Sink.Reliable.willing {τ : Type} {sink : Sink τ} (h : sink.Reliable) :
    Willing (Cursor.source.beside sink) where
  peek w := by
    rcases Nat.lt_or_ge w.1.index w.1.bytes.size with hlt | hge
    · exact .inl (congrArg Except.ok (Cursor.peek_of_lt hlt))
    · exact .inr (congrArg Except.ok (Cursor.peek_of_end hge))
  next w := ⟨w.1.next.1, rfl⟩
  put byte w := h.put byte w.2
  flush w := h.flush w.2

/-! ## Passages -/

/-- A passage through to a tape as `P` says, or to a read behind the end of the input. -/
inductive Passage.Comes (P : Tape → Prop) : Passage σ → Prop
  | through {tape : Tape} {world : σ} (h : P tape) : Comes P (.through tape world)
  | exhausted {position : Option Position} {tape : Tape} {world : σ} :
    Comes P (.stopped (.inputExhausted position) tape world)

theorem Passage.Comes.andThen {P Q : Tape → Prop} {p : Passage σ} {next : Tape → σ → Passage σ}
    (hp : p.Comes P) (hnext : ∀ tape world, P tape → (next tape world).Comes Q) :
    (p.andThen next).Comes Q := by
  cases hp with
  | through h => exact hnext _ _ h
  | exhausted => exact .exhausted

theorem Passage.Comes.imp {P Q : Tape → Prop} {p : Passage σ} (hp : p.Comes P)
    (h : ∀ tape, P tape → Q tape) : p.Comes Q := by
  cases hp with
  | through hP => exact .through (h _ hP)
  | exhausted => exact .exhausted

namespace Willing

open Transfer

variable {position : Option Position}

theorem comes_write (h : Willing d) (hb : 256 ≤ bound) (byte : UInt8) (world : σ) :
    ((Transfer.offer byte).perform d canPeek bound position tape world).Comes (· = tape) := by
  obtain ⟨more, rfl⟩ := Nat.exists_eq_add_of_le' hb
  have hsent : (Transfer.offer byte).resume canPeek position (d (.put byte) world).1 =
      .done .sent := by
    rw [h.put]
    rfl
  rw [show more + 256 = more + 254 + 2 from rfl, perform_of_done hsent]
  exact .through rfl

theorem comes_take (h : Willing d) (more : Nat) (world : σ) :
    (Transfer.take.perform d canPeek (more + 2) position tape world).Comes
      fun new => ∃ byte, new = tape.set byte := by
  obtain ⟨byte?, hbyte⟩ := h.next world
  cases byte? with
  | some byte =>
    have hgot : Transfer.take.resume canPeek position (d .next world).1 =
        .done (.received byte) := by
      rw [hbyte]
      rfl
    rw [perform_of_done hgot]
    exact .through ⟨byte, rfl⟩
  | none =>
    have hend : Transfer.take.resume canPeek position (d .next world).1 =
        .done (.failed (.inputExhausted position)) := by
      rw [hbyte]
      rfl
    rw [perform_of_done hend]
    exact .exhausted

theorem comes_read (h : Willing d) (hb : 256 ≤ bound) (world : σ) :
    (Transfer.prompt.perform d canPeek bound position tape world).Comes
      fun new => ∃ byte, new = tape.set byte := by
  obtain ⟨more, rfl⟩ := Nat.exists_eq_add_of_le' hb
  have hprompt : Transfer.prompt.resume canPeek position (d .flush world).1 =
      .stage (reading canPeek) := by
    rw [h.flush]
    rfl
  rw [show more + 256 = more + 255 + 1 from rfl, perform_of_stage hprompt, reading]
  split
  · have hlook (world : σ) :
        Transfer.look.resume canPeek position (d .peek world).1 = .stage .take := by
      rcases h.peek world with hp | hp <;> rw [hp] <;> rfl
    rw [show more + 255 = more + 254 + 1 from rfl, perform_of_stage (hlook _)]
    exact h.comes_take (more + 252) _
  · exact h.comes_take (more + 253) _

end Willing

/-! ## Sites on a tape -/

namespace Site

variable {length base : Nat} {s s' : Site length} {c : Fin length} {op : Op}

/-- The place of a cell so far to the right of `base`. -/
def place (base : Nat) (c : Fin length) : Nat := (base + c) % length

theorem place_injective {c c' : Fin length} (h : place base c = place base c') : c = c' := by
  have hc := c.isLt
  have hc' := c'.isLt
  have hmod : (base + c) % length = (base + c') % length := h
  have hcancel := Nat.ModEq.add_left_cancel' base hmod
  exact Fin.ext (Nat.ModEq.eq_of_lt_of_lt hcancel hc hc')

/-- The pointer is where it is known to be, for a run that began at `base`. -/
structure Stands (base : Nat) (s : Site length) (tape : Tape) : Prop where
  length : tape.length = length
  pointer : tape.pointer = place base s.offset

/-- What is still to be taken from a counter before anything else is done. -/
def owed (s : Site length) (c : Fin length) : UInt8 := if s.fresh ∧ c = s.offset then 1 else 0

/-- What a counter is worth. -/
def worth (base : Nat) (s : Site length) (tape : Tape) (c : Fin length) : UInt8 :=
  tape.cell (place base c) - s.owed c

theorem worth_of_not_fresh (hs : s.fresh = false) (tape : Tape) (c : Fin length) :
    worth base s tape c = tape.cell (place base c) := by
  rw [worth, owed, if_neg (by simp [hs]), UInt8.sub_zero]

theorem worth_opened (tape : Tape) (hc : c ≠ s.offset) :
    worth base s.opened tape c = tape.cell (place base c) := by
  rw [worth, owed, if_neg fun h => hc h.2, UInt8.sub_zero]

theorem worth_opened_self (tape : Tape) :
    worth base s.opened tape s.offset = tape.cell (place base s.offset) - 1 := by
  rw [worth, owed, if_pos ⟨rfl, rfl⟩]

namespace Stands

theorem get (h : Stands base s tape) : tape.get = tape.cell (place base s.offset) := by
  rw [tape.get_eq_cell, h.pointer]

theorem advance (h : Stands base s tape) (n : Nat) : Stands base (s.move n) (tape.advance n) where
  length := (tape.length_advance n).trans h.length
  pointer := by
    rw [tape.pointer_advance, h.length, h.pointer, place, place, Nat.mod_add_mod]
    show (base + s.offset + n) % length = (base + (s.offset + n) % length) % length
    rw [Nat.add_mod_mod, Nat.add_assoc]

/-- The cell at the pointer does not count. -/
theorem cell_set (h : Stands base s tape) (hs : s.offset ∉ s.counters) (value : UInt8)
    (hc : c ∈ s.counters) : (tape.set value).cell (place base c) = tape.cell (place base c) := by
  rw [Tape.cell_set, h.pointer]
  refine if_neg fun heq => hs ?_
  rwa [place_injective heq]

end Stands

/-- A tape that a walk from `s` leaves at `s'`. -/
structure Arrives (base : Nat) (s : Site length) (tape : Tape) (s' : Site length) (new : Tape) :
    Prop where
  stands : Stands base s' new
  worth : ∀ c ∈ s.counters, s'.worth base new c = s.worth base tape c

theorem Stands.set (h : Stands base s tape) (hs : s.offset ∉ s.counters) (value : UInt8) :
    Arrives base s tape s (tape.set value) where
  stands := ⟨h.length, h.pointer⟩
  worth c hc := by
    rw [Site.worth, Site.worth, h.cell_set hs value hc]

theorem Step.counters {k : Command} (h : Step s k.op s') : s'.counters = s.counters := by
  generalize hop : k.op = op at h
  cases h with
  | move | take | change | write => rfl
  | loopStart | loopEnd => cases k <;> cases hop

theorem Stands.arrives (h : Stands base s tape) : Arrives base s tape s tape := ⟨h, fun _ _ => rfl⟩

theorem Arrives.trans {s₁ : Site length} {new newer : Tape} (h : Arrives base s tape s₁ new)
    (hc : s₁.counters = s.counters) (h' : Arrives base s₁ new s' newer) :
    Arrives base s tape s' newer :=
  ⟨h'.stands, fun c hmem => (h'.worth c (hc ▸ hmem)).trans (h.worth c hmem)⟩

/-- The first step of a loop takes from its counter what is owed. -/
theorem Stands.take (h : Stands base s tape) (hs : s.fresh = true) :
    Arrives base s tape s.taken (tape.add 255) where
  stands := ⟨h.length, h.pointer⟩
  worth c hc := by
    rw [worth_of_not_fresh rfl, Site.worth, owed, Tape.add, Tape.cell_set, h.pointer, h.get]
    by_cases heq : c = s.offset
    · subst heq
      rw [if_pos rfl, if_pos ⟨hs, rfl⟩, UInt8.sub_eq_add_neg]
      rfl
    · rw [if_neg fun hplace => heq (place_injective hplace).symm, if_neg fun howed => heq howed.2,
        UInt8.sub_zero]

/-! ## Commands -/

theorem Step.offset (h : Step s op s') (hop : op.isMove = false) : s'.offset = s.offset := by
  cases h with
  | move => cases hop
  | take | change | write | loopStart | loopEnd => rfl

theorem Step.arrives_move {n : Nat} (h : Step s (.move n) s') (hs : Stands base s tape) :
    Arrives base s tape s' (tape.advance n) := by
  cases h with
  | move n hfresh =>
    refine ⟨hs.advance n, fun c _ => ?_⟩
    rw [worth_of_not_fresh rfl, worth_of_not_fresh hfresh, Tape.cell_advance]
  | change hop => cases hop

theorem Step.arrives_add {n : Nat} (h : Step s (.add n) s') (hs : Stands base s tape) :
    Arrives base s tape s' (tape.add n.toUInt8) := by
  obtain ⟨hfresh, rfl, rfl⟩ | ⟨hfree, rfl⟩ := h.add_cases
  · exact hs.take hfresh
  · exact hs.set hfree _

theorem Step.arrives_reset (h : Step s .reset s') (hs : Stands base s tape) :
    Arrives base s tape s' (tape.set 0) := by
  cases h with
  | change _ hfree => exact hs.set hfree 0

theorem Step.arrives_read (h : Step s .read s') (hs : Stands base s tape) (byte : UInt8) :
    Arrives base s tape s' (tape.set byte) := by
  cases h with
  | change _ hfree => exact hs.set hfree byte

theorem Step.arrives_write (h : Step s .write s') (hs : Stands base s tape) :
    Arrives base s tape s' tape := by
  cases h with
  | change hop => cases hop
  | write => exact hs.arrives

/-- A command leads from one site to the next. -/
theorem Step.comes {k : Command} (h : Step s k.op s') (hs : Stands base s tape) (hd : Willing d)
    (hb : 256 ≤ bound) (position : Option Position) (world : σ) :
    (k.exec d canPeek bound position tape world).Comes (Arrives base s tape s') := by
  cases k with
  | move n => exact .through (h.arrives_move hs)
  | add n => exact .through (h.arrives_add hs)
  | reset => exact .through (h.arrives_reset hs)
  | read =>
    refine (hd.comes_read hb world).imp ?_
    rintro new ⟨byte, rfl⟩
    exact h.arrives_read hs byte
  | write =>
    refine (hd.comes_write hb tape.get world).imp ?_
    rintro new rfl
    exact h.arrives_write hs

/-! ## Whole trees -/

/-- A loop whose passes each take one from its counter. The measure is what is left there. -/
theorem comes_whileNonzero {body : Tape → σ → Passage σ}
    (hbody : ∀ tape world, Stands base s tape →
      (body tape world).Comes fun new => Stands base s new ∧ new.get = tape.get - 1 ∧
        ∀ c ∈ s.counters, new.cell (place base c) = tape.cell (place base c))
    (hs : Stands base s tape) (rounds : Nat) (hrounds : tape.get.toNat < rounds) (world : σ) :
    (whileNonzero body rounds tape world).Comes fun new => Stands base s new ∧
      ∀ c ∈ s.counters, new.cell (place base c) = tape.cell (place base c) := by
  induction rounds generalizing tape world with
  | zero => omega
  | succ rounds ih =>
    unfold whileNonzero
    split
    case isTrue => exact .through ⟨hs, fun _ _ => rfl⟩
    case isFalse hne =>
      refine (hbody tape world hs).andThen fun new world hpass => ?_
      obtain ⟨hnew, hget, hcells⟩ := hpass
      have hpos : tape.get.toNat ≠ 0 := fun hzero => hne (UInt8.toNat_inj.mp hzero)
      have hless : new.get.toNat < rounds := by
        rw [hget, UInt8.toNat_sub_of_le _ _ (UInt8.le_iff_toNat_le.mpr (by simp; omega))]
        simp
        omega
      refine (ih hnew hless world).imp fun newer hnewer => ⟨hnewer.1, fun c hc => ?_⟩
      rw [hnewer.2 c hc, hcells c hc]

/-- A loop, taken apart. -/
theorem Walks.exists_of_loop {inner behind : List Op}
    (h : Walks s (.loopStart :: (inner ++ .loopEnd :: behind)) s') :
    s.offset ∉ s.counters ∧ ∃ last outer, Walks s.opened inner last ∧ last.fresh = false ∧
      last.counters = last.offset :: outer ∧ Walks (last.closed outer) behind s' := by
  cases h with
  | cons hstart hrest =>
    cases hstart with
    | change hop => cases hop
    | loopStart hs =>
      obtain ⟨last, hinner, hmore⟩ := hrest.exists_of_append
      cases hmore with
      | cons hend hbehind =>
        cases hend with
        | change hop => cases hop
        | loopEnd hfresh hc => exact ⟨hs, last, _, hinner, hfresh, hc, hbehind⟩

theorem flatten_loop (opening closing : Option Position) (body rest : Tree) :
    (Tree.loop opening closing body rest).flatten.map (·.op) =
      .loopStart :: (body.flatten.map (·.op) ++ .loopEnd :: rest.flatten.map (·.op)) := by
  simp [Tree.flatten]

/-- Behind a tree no other loops are open than in front of it. -/
theorem Walks.counters {t : Tree} (h : Walks s (t.flatten.map (·.op)) s') :
    s'.counters = s.counters := by
  induction t generalizing s s' with
  | nil =>
    cases h
    rfl
  | command k position rest ih =>
    cases h with
    | cons hstep hrest => exact (ih hrest).trans hstep.counters
  | loop opening closing body rest ihb ihr =>
    rw [flatten_loop] at h
    obtain ⟨-, last, outer, hbody, -, hc, hrest⟩ := h.exists_of_loop
    rw [ihb hbody] at hc
    exact (ihr hrest).trans (List.cons.inj hc).2.symm

/-- A pass through a loop comes back to its counter. -/
theorem Walks.exists_pass {opening closing : Option Position} {body rest : Tree}
    (h : Walks s ((Tree.loop opening closing body rest).flatten.map (·.op)) s') :
    s.offset ∉ s.counters ∧ (∃ last, Walks s.opened (body.flatten.map (·.op)) last ∧
      last.fresh = false ∧ last.offset = s.offset) ∧ Walks s (rest.flatten.map (·.op)) s' := by
  rw [flatten_loop] at h
  obtain ⟨hs, last, outer, hbody, hfresh, hc, hrest⟩ := h.exists_of_loop
  have hcounters : last.counters = s.offset :: s.counters := hbody.counters
  rw [hcounters] at hc
  obtain ⟨hoffset, rfl⟩ := List.cons.inj hc
  have hclosed : last.closed s.counters = s :=
    Site.ext rfl hoffset.symm (fresh_of_not_mem hs).symm
  exact ⟨hs, ⟨last, hbody, hfresh, hoffset.symm⟩, hclosed ▸ hrest⟩

/-- What a tree does between two sites. -/
theorem Walks.comes {t : Tree} (h : Walks s (t.flatten.map (·.op)) s') (hs : Stands base s tape)
    (hd : Willing d) (hb : 256 ≤ bound) (world : σ) :
    (t.exec d canPeek bound tape world).Comes (Arrives base s tape s') := by
  induction t generalizing s s' tape world with
  | nil =>
    cases h
    exact .through hs.arrives
  | command k position rest ih =>
    cases h with
    | cons hstep hrest =>
      refine (hstep.comes hs hd hb position world).andThen fun new world hnew => ?_
      exact (ih hrest hnew.stands world).imp fun newer => hnew.trans hstep.counters
  | loop opening closing body rest ihb ihr =>
    obtain ⟨hfree, ⟨last, hbody, hlast, hoffset⟩, hrest⟩ := h.exists_pass
    have hfresh := fresh_of_not_mem hfree
    -- what is known behind a pass, as it is known in front of it
    have hpass (tape : Tape) (world : σ) (hs : Stands base s tape) :
        (body.exec d canPeek bound tape world).Comes fun new => Stands base s new ∧
          new.get = tape.get - 1 ∧
          ∀ c ∈ s.counters, new.cell (place base c) = tape.cell (place base c) := by
      refine (ihb hbody ⟨hs.length, hs.pointer⟩ world).imp fun new hnew => ?_
      have hstands : Stands base s new :=
        ⟨hnew.stands.length, by rw [hnew.stands.pointer, hoffset]⟩
      have hworth (c : Fin length) (hc : c ∈ s.opened.counters) :
          new.cell (place base c) = s.opened.worth base tape c := by
        rw [← hnew.worth c hc, worth_of_not_fresh hlast]
      refine ⟨hstands, ?_, fun c hc => ?_⟩
      · rw [hstands.get, hs.get, hworth s.offset List.mem_cons_self, worth_opened_self]
      · rw [hworth c (List.mem_cons_of_mem _ hc), worth_opened]
        rintro rfl
        exact hfree hc
    refine (comes_whileNonzero hpass hs bound ?_ world).andThen fun new world hnew => ?_
    · have hlt := tape.get.toNat_lt
      omega
    · refine (ihr hrest hnew.1 world).imp fun newer => Arrives.trans ⟨hnew.1, fun c hc => ?_⟩ rfl
      rw [worth_of_not_fresh hfresh, worth_of_not_fresh hfresh, hnew.2 c hc]

end Site

end TapeLang
