/-!
# Positions in a source text

A position is an inclusive range of character indices. Joined instructions keep the range from the
first character to the last, comments in between included.

* `Position.span`: the smallest position that covers two given ones.
* `Position.text`: how a position is written, `4` or `4-7`.
-/

namespace TapeLang

/-- The characters from index `start` to index `stop`, both included. -/
structure Position where
  start : Nat
  stop : Nat
deriving DecidableEq

namespace Position

def single (index : Nat) : Position := ⟨index, index⟩

/-- The smallest position that covers both; an unknown one adds nothing. -/
def span : Option Position → Option Position → Option Position
  | some p, some q => some ⟨min p.start q.start, max p.stop q.stop⟩
  | some p, none => some p
  | none, q => q

def text (p : Position) : String :=
  if p.start = p.stop then toString p.start else toString p.start ++ "-" ++ toString p.stop

end Position

end TapeLang
