/-!
# Text styles on terminals

A style is a control sequence before a text; another one behind it goes back to plain text. A text
that goes back to plain text by itself gets the style again there.
-/

namespace TapeLang

inductive Style where
  | bold
  | boldRed
  | boldGreen
  | italic
  | dimmed
  | purple
  | blue
  | green
deriving DecidableEq

namespace Style

/-- The parameters of the control sequence. -/
def code : Style → String
  | bold => "1"
  | boldRed => "1;31"
  | boldGreen => "1;32"
  | italic => "3"
  | dimmed => "2"
  | purple => "35"
  | blue => "34"
  | green => "32"

/-- The control sequence that begins the style. -/
def start (s : Style) : String := "\x1b[" ++ s.code ++ "m"

/-- The control sequence for plain text. -/
def plain : String := "\x1b[0m"

/-- `text` in the style, or as it is if there is no `color`. -/
def paint (s : Style) (color : Bool) (text : String) : String :=
  if color then s.start ++ text.replace plain (plain ++ s.start) ++ plain else text

end Style

end TapeLang
