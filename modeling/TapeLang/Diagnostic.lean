import TapeLang.Ansi
import TapeLang.Position

/-!
# Diagnostics

An error about a program, shown with the line of source text it is about and a row of carets under
the characters in question.
-/

namespace TapeLang

structure Diagnostic where
  filename : String
  message : String
  position : Option Position
  source : String
deriving DecidableEq

namespace Diagnostic

/-- The line and the column, from 0, of the place behind `chars`, starting at the given ones. -/
def advance (line column : Nat) : List Char → Nat × Nat
  | [] => (line, column)
  | ch :: rest => if ch = '\n' then advance (line + 1) 0 rest else advance line (column + 1) rest

def lineAndColumn (source : List Char) (index : Nat) : Nat × Nat := advance 0 0 (source.take index)

/-- The lines of a text without their ends, which are a line feed or a carriage return and a line
feed. A text that ends with one has no further line. -/
def lines (source : List Char) : List (List Char) :=
  match source.splitOn '\n' with
  | [] => []
  | pieces =>
    let ended := pieces.dropLast.map fun l => if l.getLast? = some '\r' then l.dropLast else l
    let last := pieces.getLastD []
    if last.isEmpty then ended else ended ++ [last]

/-- How many carets a position gets: one for each of its characters if they stand on one line, else
one. -/
def width (source : List Char) (p : Position) : Nat :=
  let (line, column) := lineAndColumn source p.start
  let (endLine, endColumn) := lineAndColumn source p.stop
  if p.start < p.stop ∧ endLine = line then endColumn - column + 1 else 1

def text (d : Diagnostic) (color : Bool) : String :=
  let label := Style.boldRed.paint color "error:"
  match d.position with
  | none => s!"{Style.bold.paint color d.filename}: {label} {d.message}"
  | some p =>
    let source := d.source.toList
    let (line, column) := lineAndColumn source p.start
    let place := Style.bold.paint color s!"{d.filename}:{line + 1}:{column + 1}:"
    let context := String.ofList ((lines source).getD line [])
    let margin := "".pushn ' ' column
    let carets := Style.boldGreen.paint color ("".pushn '^' (width source p))
    s!"{place} {label} {d.message}\n{context}\n{margin}{carets}"

end Diagnostic

end TapeLang
