import TapeLang.Failure

/-!
# Why code cannot be made
-/

namespace TapeLang

inductive BuildError where
  | artifactExists (path : String)
  | unbalancedLoops (index : Nat)
  | unboundLabel
  | tapeTooLarge (length : Nat)
  | programTooLarge (count : Nat)
  | unsupportedTarget (architecture : String)
  | mapping (failure : Failure)
  | file (failure : Failure)
deriving DecidableEq

def BuildError.message : BuildError → String
  | .artifactExists path => s!"Refusing to overwrite existing artifact {path}"
  | .unbalancedLoops index => s!"Loop brackets are unbalanced at instruction {index}"
  | .unboundLabel => "Branch to a label that was never bound"
  | .tapeTooLarge length => s!"Tape length {length} does not fit in a 32-bit immediate"
  | .programTooLarge count => s!"Program has too many instructions to address ({count})"
  | .unsupportedTarget architecture =>
    s!"Native code generation is not supported on {architecture}"
  | .mapping failure => s!"Could not map executable memory: {failure.text}"
  | .file failure => s!"Could not write artifact: {failure.text}"

end TapeLang
