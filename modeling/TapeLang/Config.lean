/-!
# What is fixed when a program is read

A `Config` holds the tape length, the depth that loops may not reach, and the optimisations to make.
Both numbers are positive: `withTapeLength` and `withMaxDepth` refuse zero.
-/

namespace TapeLang

/-- What the reader simplifies: `joinRuns` adds up neighbouring moves and neighbouring
additions, `clearLoops` turns `[-]` and `[+]` into one reset. -/
structure Optimisations where
  joinRuns : Bool
  clearLoops : Bool
deriving DecidableEq

namespace Optimisations

def all : Optimisations := ⟨true, true⟩

/-- Bit 0 stands for `joinRuns`, bit 1 for `clearLoops`; no other bit has a meaning. -/
def ofBits? (bits : Nat) : Option Optimisations :=
  if bits < 4 then some ⟨bits.testBit 0, bits.testBit 1⟩ else none

def bits (o : Optimisations) : Nat := o.joinRuns.toNat + 2 * o.clearLoops.toNat

theorem ofBits?_bits (o : Optimisations) : ofBits? o.bits = some o := by
  rcases o with ⟨_ | _, _ | _⟩ <;> rfl

end Optimisations

inductive ConfigError where
  | zeroTapeLength
  | zeroMaxDepth
deriving DecidableEq

def ConfigError.message : ConfigError → String
  | .zeroTapeLength => "Tape length must be at least 1"
  | .zeroMaxDepth => "Maximum loop depth must be at least 1"

structure Config where
  tapeLength : Nat
  maxDepth : Nat
  optimisations : Optimisations
  tapeLength_pos : 0 < tapeLength
  maxDepth_pos : 0 < maxDepth
deriving DecidableEq

namespace Config

/-- 30000 cells, 256 levels and both optimisations. -/
def standard : Config := ⟨30000, 256, .all, by decide, by decide⟩

def withTapeLength (c : Config) (length : Nat) : Except ConfigError Config :=
  if h : 0 < length then .ok { c with tapeLength := length, tapeLength_pos := h }
  else .error .zeroTapeLength

def withMaxDepth (c : Config) (depth : Nat) : Except ConfigError Config :=
  if h : 0 < depth then .ok { c with maxDepth := depth, maxDepth_pos := h }
  else .error .zeroMaxDepth

def withOptimisations (c : Config) (o : Optimisations) : Config := { c with optimisations := o }

/-- The standard optimisations with other limits. A bad tape length is reported first. -/
def ofLimits (tapeLength maxDepth : Nat) : Except ConfigError Config := do
  (← standard.withTapeLength tapeLength).withMaxDepth maxDepth

end Config

end TapeLang
