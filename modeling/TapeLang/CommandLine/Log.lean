import TapeLang.Ansi

/-!
# Log lines

A record has a level, a message, and fields. It is shown on one line if the level is at least the
one asked for: warnings without `-v`, debugging with one, everything with more.
-/

namespace TapeLang.CommandLine

inductive Level where
  | trace
  | debug
  | info
deriving DecidableEq

namespace Level

def style : Level → Style
  | trace => .purple
  | debug => .blue
  | info => .green

/-- Names are set flush right. -/
def name : Level → String
  | trace => "TRACE"
  | debug => "DEBUG"
  | info => " INFO"

/-- How often `-v` must be given to see the level. -/
def verbosity : Level → Nat
  | trace => 2
  | debug => 1
  | info => 1

end Level

structure Record where
  level : Level
  message : String
  /-- Names and values, in order. -/
  fields : List (String × String)
deriving DecidableEq

namespace Record

def isShown (r : Record) (verbosity : Nat) : Bool := r.level.verbosity ≤ verbosity

def field (color : Bool) (name value : String) : String :=
  " " ++ Style.italic.paint color name ++ Style.dimmed.paint color "=" ++ value

def line (r : Record) (color : Bool) : String :=
  let fields := String.join (r.fields.map fun (name, value) => field color name value)
  s!"{r.level.style.paint color r.level.name} {r.message}{fields}\n"

end Record

end TapeLang.CommandLine
