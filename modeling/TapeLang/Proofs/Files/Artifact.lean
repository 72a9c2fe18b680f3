import Mathlib
import TapeLang.Artifact
import TapeLang.Proofs.Files.Paths
import TapeLang.Proofs.Native.Standalone

/-!
# Executables are made whole or not at all

An attempt to make an executable at a path may meet with mishaps. In the end the file is new and
complete, or the terminal is what it was. Nothing that a path leads to is ever changed or removed, by
one attempt or by many.

* `Turnout`: what can come of an attempt.
* `Attempt.turns_out`: nothing else can.
* `Terminal.find_runs`: what was found at a path is still there after any attempts.
* `Attempt.whole_or_nothing`: attempts are all or nothing, and the first that succeeds at a path is
  the last that changes it.
* `Attempt.refused_as_directory`: for a directory, a slash at the end of the path changes the error.
-/

namespace TapeLang

/-! ## The new file -/

namespace FileSystem

variable {fs : FileSystem} {p : Place} {path : String} {content old : Array UInt8}

theorem create_of_freePlace (h : fs.freePlace path = .ok p) :
    fs.create path = (.ok (), fs.insert p (.file #[] true)) := by
  rw [create, h]

theorem write_insert (h : fs.Free path p) :
    (fs.insert p (.file old true)).write path content =
      (.ok (), fs.insert p (.file content true)) := by
  simp only [write, resolve_of_free h, entry?_insert_self h.named, insert_insert]

/-- The file that a path names is the one that was made there, so that none other is removed. -/
theorem remove_insert (h : fs.Free path p) :
    (fs.insert p (.file content true)).remove path = (.ok (), fs) := by
  simp only [remove, resolve_of_free h, entry?_insert_self h.named, erase_insert h.absent]

/-- `new` holds one entry more than `old`, at `path`, where nothing was. -/
structure Adds (old new : FileSystem) (path : String) (entry : Entry) : Prop where
  absent : ∀ e, old.find path ≠ .ok e
  present : new.find path = .ok entry
  place : ∃ p, new.resolve path = .ok p ∧ old.entry? p = none ∧ new.entry? p = some entry ∧
    ∀ q, q ≠ p → new.entry? q = old.entry? q

theorem adds_insert (h : fs.freePlace path = .ok p) (entry : Entry) :
    fs.Adds (fs.insert p entry) path entry := by
  have hfree := free_of_freePlace h
  have hpresent : entry? (fs.insert p entry) p = some entry := entry?_insert_self hfree.named
  refine ⟨fun e he => freePlace_ne_ok he h, ?_, p, resolve_of_free hfree entry, hfree.absent,
    hpresent, ?_⟩
  · rw [find, resolve_of_free hfree]
    simp only [hpresent]
  · exact fun q hq => entry?_insert_of_ne hq

end FileSystem

/-! ## Mishaps -/

/-- What goes wrong while a file is made: it is not made at all, or its bytes do not all get there
and others may, or they cannot be made to stay. -/
structure Mishaps where
  create : Option Failure
  write : Option (Failure × Array UInt8)
  sync : Option Failure
deriving DecidableEq

namespace Mishaps

def never : Mishaps := ⟨none, none, none⟩

theorem eq_never {m : Mishaps} (hcreate : m.create = none) (hwrite : m.write = none)
    (hsync : m.sync = none) : m = never := by
  rcases m with ⟨create, write, sync⟩
  cases hcreate
  cases hwrite
  cases hsync
  rfl

/-- A terminal where files are made with mishaps. Whatever it fails at, it can remove a file. -/
def device (m : Mishaps) : Device shell Terminal
  | .create path, t =>
    match m.create with
    | some f => (.error f, t)
    | none => Terminal.device (.create path) t
  | .write path content, t =>
    match m.write with
    | some (f, part) => (.error f, (Terminal.device (.write path part) t).2)
    | none => Terminal.device (.write path content) t
  | .sync path, t =>
    match m.sync with
    | some f => (.error f, t)
    | none => Terminal.device (.sync path) t
  | request, t => Terminal.device request t

end Mishaps

/-- The error for an executable that was not made at `path`. -/
def refusal (path : String) (f : Failure) : BuildError :=
  if f.kind = .alreadyExists then .artifactExists path else .file f

namespace Executable

variable {σ : Type} {d : Device shell σ} {path : String} {w : σ}

theorem run_discard {f : Failure} :
    (discard path f).run d w = (.error (.file f), (d (.remove path) w).2) := rfl

theorem run_save (e : Executable) : (e.save path).run d w =
    match d (.create path) w with
    | (.error f, w) => (.error (refusal path f), w)
    | (.ok (), w) =>
      match d (.write path e.bytes) w with
      | (.error f, w) => (discard path f).run d w
      | (.ok (), w) =>
        match d (.sync path) w with
        | (.error f, w) => (discard path f).run d w
        | (.ok (), w) => (.ok e, w) := by
  simp only [save, bind, Dialogue.request, Dialogue.bind, Dialogue.run]
  rcases d (.create path) w with ⟨f | ⟨⟩, w⟩
  · rfl
  · simp only [Dialogue.run]
    rcases d (.write path e.bytes) w with ⟨f | ⟨⟩, w⟩
    · rfl
    · simp only [Dialogue.run]
      rcases d (.sync path) w with ⟨f | ⟨⟩, w⟩ <;> rfl

end Executable

/-! ## Attempts -/

/-- An attempt to make the executable of a program. -/
structure Attempt where
  program : Program
  path : String
  moduleName : String
  mishaps : Mishaps

namespace Attempt

def build (a : Attempt) : Except BuildError Executable := Executable.build a.program a.moduleName

def run (a : Attempt) (t : Terminal) : Except BuildError Executable × Terminal :=
  (a.program.writeExecutable a.path a.moduleName).run a.mishaps.device t

end Attempt

namespace Terminal

/-- The terminal with a new executable file at `p`. -/
def withFile (t : Terminal) (p : Place) (content : Array UInt8) : Terminal :=
  { t with files := t.files.insert p (.file content true) }

/-- The terminal after attempts. -/
def runs (t : Terminal) (attempts : List Attempt) : Terminal :=
  attempts.foldl (fun t a => (a.run t).2) t

end Terminal

/-- What can come of an attempt: the answer, and the terminal afterwards. -/
inductive Turnout (a : Attempt) (t : Terminal) : Except BuildError Executable × Terminal → Prop
  | unbuilt {err : BuildError} (hbuild : a.build = .error err) : Turnout a t (.error err, t)
  | failed {e : Executable} {f : Failure} (hbuild : a.build = .ok e)
      (hcreate : a.mishaps.create = some f) : Turnout a t (.error (refusal a.path f), t)
  | refused {e : Executable} {f : Failure} (hbuild : a.build = .ok e)
      (hcreate : a.mishaps.create = none) (hplace : t.files.freePlace a.path = .error f) :
      Turnout a t (.error (refusal a.path f), t)
  | discarded {e : Executable} {p : Place} {f : Failure} (hbuild : a.build = .ok e)
      (hcreate : a.mishaps.create = none) (hplace : t.files.freePlace a.path = .ok p)
      (hmishap : a.mishaps ≠ .never) : Turnout a t (.error (.file f), t)
  | made {e : Executable} {p : Place} (hbuild : a.build = .ok e)
      (hplace : t.files.freePlace a.path = .ok p) (hmishap : a.mishaps = .never) :
      Turnout a t (.ok e, t.withFile p e.bytes)

namespace Attempt

variable {a : Attempt} {t : Terminal} {p : Place} {e : Executable} {old : Array UInt8}

theorem create_withFile (hcreate : a.mishaps.create = none)
    (hplace : t.files.freePlace a.path = .ok p) :
    a.mishaps.device (.create a.path) t = (.ok (), t.withFile p #[]) := by
  simp only [Mishaps.device, hcreate, Terminal.device, FileSystem.create_of_freePlace hplace,
    Terminal.withFile]

theorem write_withFile (hfree : t.files.Free a.path p) (content : Array UInt8) :
    Terminal.device (.write a.path content) (t.withFile p old) =
      (.ok (), t.withFile p content) := by
  simp only [Terminal.device, Terminal.withFile, FileSystem.write_insert hfree]

/-- A file that could not be completed is gone without a trace. -/
theorem discard_withFile (hfree : t.files.Free a.path p) (f : Failure) :
    (discard a.path f).run a.mishaps.device (t.withFile p old) = (.error (.file f), t) := by
  rw [Executable.run_discard]
  simp only [Mishaps.device, Terminal.device, Terminal.withFile, FileSystem.remove_insert hfree]

theorem run_of_build (hbuild : a.build = .ok e) :
    a.run t = (e.save a.path).run a.mishaps.device t := by
  rw [build] at hbuild
  rw [run, Program.writeExecutable, hbuild]

theorem run_of_not_build {err : BuildError} (hbuild : a.build = .error err) :
    a.run t = (.error err, t) := by
  rw [build] at hbuild
  rw [run, Program.writeExecutable, hbuild]
  rfl

/-- Every step of an attempt may fail, and then the attempt ends. -/
theorem turns_out (a : Attempt) (t : Terminal) : Turnout a t (a.run t) := by
  cases hbuild : a.build with
  | error err =>
    rw [run_of_not_build hbuild]
    exact .unbuilt hbuild
  | ok e =>
    rw [run_of_build hbuild, Executable.run_save]
    cases hcreate : a.mishaps.create with
    | some f =>
      simp only [Mishaps.device, hcreate]
      exact .failed hbuild hcreate
    | none =>
      cases hplace : t.files.freePlace a.path with
      | error f =>
        simp only [Mishaps.device, hcreate, Terminal.device, FileSystem.create, hplace]
        exact .refused hbuild hcreate hplace
      | ok p =>
        have hfree := FileSystem.free_of_freePlace hplace
        simp only [create_withFile hcreate hplace]
        cases hwrite : a.mishaps.write with
        | some mishap =>
          simp only [Mishaps.device, hwrite, write_withFile hfree, discard_withFile hfree]
          refine .discarded hbuild hcreate hplace fun hnever => ?_
          cases hwrite.symm.trans (congrArg Mishaps.write hnever)
        | none =>
          cases hsync : a.mishaps.sync with
          | some f =>
            simp only [Mishaps.device, hwrite, write_withFile hfree, hsync, discard_withFile hfree]
            refine .discarded hbuild hcreate hplace fun hnever => ?_
            cases hsync.symm.trans (congrArg Mishaps.sync hnever)
          | none =>
            simp only [Mishaps.device, hwrite, write_withFile hfree, hsync]
            exact .made hbuild hplace (Mishaps.eq_never hcreate hwrite hsync)

/-- An attempt changes nothing that a path leads to. -/
theorem find_run {path : String} {entry : Entry} (a : Attempt) (h : t.files.find path = .ok entry) :
    (a.run t).2.files.find path = .ok entry := by
  have hturnout := turns_out a t
  generalize a.run t = outcome at hturnout ⊢
  cases hturnout with
  | unbuilt => exact h
  | failed => exact h
  | refused => exact h
  | discarded => exact h
  | made _ hplace => exact FileSystem.find_insert (FileSystem.free_of_freePlace hplace).absent h

end Attempt

/-- What was found at a path is still there after any attempts. -/
theorem Terminal.find_runs {path : String} {entry : Entry} {t : Terminal} (attempts : List Attempt)
    (h : t.files.find path = .ok entry) : (t.runs attempts).files.find path = .ok entry := by
  induction attempts generalizing t with
  | nil => exact h
  | cons a attempts ih => exact ih (a.find_run h)

namespace Attempt

variable {a : Attempt} {t : Terminal} {e : Executable} {entry : Entry}

theorem exists_refusal (h : t.files.find a.path = .ok entry) :
    ∃ err, a.run t = (.error err, t) := by
  have hturnout := turns_out a t
  generalize a.run t = outcome at hturnout ⊢
  cases hturnout with
  | unbuilt => exact ⟨_, rfl⟩
  | failed => exact ⟨_, rfl⟩
  | refused => exact ⟨_, rfl⟩
  | discarded => exact ⟨_, rfl⟩
  | made _ hplace => exact absurd hplace (FileSystem.freePlace_ne_ok h)

theorem run_of_find (hbuild : a.build = .ok e) (hcreate : a.mishaps.create = none)
    (h : t.files.find a.path = .ok entry) :
    a.run t = (.error (.artifactExists a.path), t) ∨ a.path.endsWith "/" = true ∧
      entry = .directory ∧ a.run t = (.error (.file .isDirectory), t) := by
  have hturnout := turns_out a t
  generalize a.run t = outcome at hturnout ⊢
  cases hturnout with
  | unbuilt hnot => cases hbuild.symm.trans hnot
  | failed _ hfailure => cases hcreate.symm.trans hfailure
  | refused _ _ hplace =>
    rcases FileSystem.freePlace_of_find h with hnone | ⟨hends, hdirectory, hnone⟩
    · cases hnone.symm.trans hplace
      exact .inl rfl
    · cases hnone.symm.trans hplace
      exact .inr ⟨hends, hdirectory, rfl⟩
  | discarded _ _ hplace => exact absurd hplace (FileSystem.freePlace_ne_ok h)
  | made _ hplace => exact absurd hplace (FileSystem.freePlace_ne_ok h)

/-- What an attempt promises. -/
structure WholeOrNothing (a : Attempt) (t : Terminal) : Prop where
  /-- Without code, nothing is touched, whatever is at the path. -/
  unbuilt : ∀ err, a.build = .error err → a.run t = (.error err, t)
  /-- The file is new and holds the whole executable. -/
  whole : ∀ e t', a.run t = (.ok e, t') → a.build = .ok e ∧
    t.files.Adds t'.files a.path (.file e.bytes true) ∧ t'.output = t.output ∧ t'.errors = t.errors
  nothing : ∀ err t', a.run t = (.error err, t') → t' = t
  /-- If nothing is in the way, there is a file. -/
  smooth : ∀ e p, a.build = .ok e → t.files.freePlace a.path = .ok p → a.mishaps = .never →
    ∃ t', a.run t = (.ok e, t')
  /-- What is at the path is refused, and by name unless it is a directory and the path says so. -/
  occupied : ∀ entry, t.files.find a.path = .ok entry →
    (∃ err, a.run t = (.error err, t)) ∧
    ∀ e, a.build = .ok e → a.mishaps.create = none →
      a.run t = (.error (.artifactExists a.path), t) ∨ a.path.endsWith "/" = true ∧
        entry = .directory ∧ a.run t = (.error (.file .isDirectory), t)
  /-- Whatever is attempted afterwards, the file stays as it is, and nothing is made at its path. -/
  last : ∀ e t', a.run t = (.ok e, t') → ∀ attempts : List Attempt,
    (t'.runs attempts).files.find a.path = .ok (.file e.bytes true) ∧
    ∀ again : Attempt, again.path = a.path →
      ∃ err, again.run (t'.runs attempts) = (.error err, t'.runs attempts)

theorem whole_of_run {t' : Terminal} (h : a.run t = (.ok e, t')) : a.build = .ok e ∧
    t.files.Adds t'.files a.path (.file e.bytes true) ∧ t'.output = t.output ∧
    t'.errors = t.errors := by
  have hturnout := turns_out a t
  rw [h] at hturnout
  cases hturnout with
  | made hbuild hplace => exact ⟨hbuild, FileSystem.adds_insert hplace _, rfl, rfl⟩

/-- An executable is made whole or not at all, and what was there before stays. -/
theorem whole_or_nothing (a : Attempt) (t : Terminal) : a.WholeOrNothing t where
  unbuilt err hbuild := run_of_not_build hbuild
  whole e t' h := whole_of_run h
  nothing err t' h := by
    have hturnout := turns_out a t
    rw [h] at hturnout
    cases hturnout with
    | unbuilt => rfl
    | failed => rfl
    | refused => rfl
    | discarded => rfl
  smooth e p hbuild hplace hmishaps := by
    have hturnout := turns_out a t
    generalize a.run t = outcome at hturnout ⊢
    cases hturnout with
    | unbuilt hnot => cases hbuild.symm.trans hnot
    | failed _ hfailure => cases hfailure.symm.trans (congrArg Mishaps.create hmishaps)
    | refused _ _ hnot => cases hplace.symm.trans hnot
    | discarded _ _ _ hnot => exact absurd hmishaps hnot
    | made hmade =>
      cases hbuild.symm.trans hmade
      exact ⟨_, rfl⟩
  occupied entry h := ⟨exists_refusal h, fun e hbuild hcreate => run_of_find hbuild hcreate h⟩
  last e t' h attempts := by
    have hpresent := (whole_of_run h).2.1.present
    refine ⟨Terminal.find_runs attempts hpresent, ?_⟩
    rintro again hpath
    exact exists_refusal (hpath ▸ Terminal.find_runs attempts hpresent)

/-- With a slash at its end, the path to a directory is refused for being one, and not because
something is there. -/
theorem refused_as_directory : ∃ (p : Program) (e : Executable) (a : Attempt) (t : Terminal),
    parse "+" .standard = .ok p ∧ a = ⟨p, "d/", defaultModuleName, .never⟩ ∧ a.build = .ok e ∧
    t = ⟨FileSystem.empty.withDirectory "d", "", ""⟩ ∧ t.files.find a.path = .ok .directory ∧
    a.run t = (.error (.file .isDirectory), t) := by
  obtain ⟨p, hp, hs⟩ : ∃ p, parse "+" .standard = .ok p ∧ Executable.codeSize p < 2 ^ 31 :=
    ⟨_, rfl, by decide +kernel⟩
  have hlength : p.tapeLength = 30000 := tapeLength_of_parse hp
  obtain ⟨tree, htree, -⟩ := exists_tree hp
  have hl : p.tapeLength ≤ maxTapeLength := by rw [hlength]; decide
  obtain ⟨wrap, hwrap⟩ := Wrap.exists_ofTapeLength hl
  obtain ⟨e, -, hbuild, -⟩ := Executable.exists_build htree hwrap hs defaultModuleName
  have hfind : (FileSystem.empty.withDirectory "d").find "d/" = .ok .directory := by cbv
  have hplace : (FileSystem.empty.withDirectory "d").freePlace "d/" = .error .isDirectory := by cbv
  refine ⟨p, e, _, _, hp, rfl, hbuild, rfl, hfind, ?_⟩
  rw [run_of_build (a := ⟨p, "d/", defaultModuleName, .never⟩) hbuild, Executable.run_save]
  simp only [Mishaps.device, Mishaps.never, Terminal.device, FileSystem.create, hplace]
  rfl

end Attempt

end TapeLang
