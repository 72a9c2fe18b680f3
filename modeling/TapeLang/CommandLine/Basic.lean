import TapeLang.Artifact
import TapeLang.CommandLine.Arguments
import TapeLang.CommandLine.Log
import TapeLang.Diagnostic
import TapeLang.Execution
import TapeLang.LabelCode.Listing
import TapeLang.Program.Printer
import TapeLang.Text.Quoted

/-!
# The command

`begin` reads the arguments and does all that comes before a run: it loads the source, reads the
program, and prints or writes it if that was asked for. What is left is an exit status, or a `Task`:
an engine to be run on the standard streams. `conclude` turns the ending of that run into the exit
status.
-/

namespace TapeLang.CommandLine

/-! ## Messages -/

/-- A message in which every line but the first begins with `margin`. -/
def indented (margin message : String) : String :=
  ("\n" ++ margin).intercalate (message.splitOn "\n")

/-- A fatal error and what caused it, the nearest cause first. More than one are numbered. -/
def fatal (message : String) (causes : List String) : String :=
  let shown :=
    match causes with
    | [] => []
    | [cause] => ["    " ++ indented "    " cause]
    | _ => causes.zipIdx.map fun (cause, n) =>
      let number := toString n
      "".pushn ' ' (5 - number.length) ++ number ++ ": " ++ indented "       " cause
  let chain := if shown.isEmpty then "" else "\n\nCaused by:\n" ++ "\n".intercalate shown
  s!"Error: {message}{chain}\n"

/-- The causes behind an error, itself included. -/
def causes (e : Error) : List String :=
  e.message ::
    match e with
    | .run (.stream f) | .build (.mapping f) | .build (.file f) => [f.text]
    | _ => []

/-! ## Steps -/

/-- How a command was called, as far as its output depends on it. -/
structure Manner where
  color : Bool
  verbosity : Nat
deriving DecidableEq

abbrev Command := Dialogue shell

def print (channel : OutputChannel) (text : String) : Command Unit :=
  Dialogue.request (I := shell) (.print channel text)

def log (m : Manner) (level : Level) (message : String) (fields : List (String × String)) :
    Command Unit :=
  let record : Record := ⟨level, message, fields⟩
  if record.isShown m.verbosity then print .error (record.line m.color) else .done ()

/-- A source text and what to call it. -/
structure SourceText where
  filename : String
  text : String
deriving DecidableEq

/-- A program that is ready to run. -/
structure Task where
  manner : Manner
  source : SourceText
  engine : Engine

/-- An exit status, or a run that is still to be done. -/
inductive Next where
  | exit (status : UInt8)
  | run (task : Task)

def exitWith (status : UInt8) : Command Next := .done (.exit status)

def failWith (message : String) (causes : List String) : Command Next := do
  print .error (fatal message causes)
  exitWith 1

/-- Show an error under the source line it is about. -/
def showDiagnostic (m : Manner) (s : SourceText) (message : String) (position : Option Position) :
    Command Unit :=
  let d : Diagnostic := ⟨s.filename, message, position, s.text⟩
  print .error (d.text m.color ++ "\n")

/-- The content of the file that the argument names; if there is none, the argument itself. -/
def load (m : Manner) (argument : String) : Command (Except Failure SourceText) := do
  if ← Dialogue.request (I := shell) (.isFile argument) then
    match ← Dialogue.request (I := shell) (.read argument) with
    | .error f => return .error f
    | .ok content =>
      match String.fromUTF8? ⟨content⟩ with
      | some text => return .ok ⟨argument, text⟩
      | none => return .error .notUtf8
  else
    log m .debug s!"no file named {Text.quoted argument}, treating it as program text" []
    return .ok ⟨"<argument>", argument⟩

/-- Lower a program, and say so if it went well. -/
def lowerAloud (m : Manner) (p : Program) : Command (Except BuildError (Array Operation)) := do
  match p.lower.toExcept with
  | .error e => return .error e
  | .ok operations =>
    let wrap :=
      match Wrap.ofTapeLength p.tapeLength with
      | .ok (.mask bits) => s!"Mask({bits})"
      | .ok (.length cells) => s!"Length({cells})"
      | .error _ => ""
    log m .trace "lowered program" [("instructions", toString p.size), ("wrap", wrap)]
    return .ok operations

/-- Print a program as source text, as label code, or both. -/
def printProgram (m : Manner) (a : Arguments) (p : Program) : Command Next := do
  if a.printSource then print .standard (p.source ++ "\n")
  if a.printListing then
    match ← lowerAloud m p with
    | .error e => failWith e.message []
    | .ok operations =>
      print .standard (listing operations ++ "\n")
      exitWith 0
  else exitWith 0

/-- The last name of a path without its extension. -/
def stem? (path : String) : Option String :=
  let name := ((path.splitOn "/").reverse.dropWhile fun n => n = "" || n = ".").headD ""
  if name = "" || name = ".." then none
  else
    match name.splitOn "." with
    | [whole] => some whole
    | ["", hidden] => some ("." ++ hidden)
    | pieces => some (".".intercalate pieces.dropLast)

def writeProgram (m : Manner) (a : Arguments) (p : Program) (path : String) : Command Next := do
  let name := a.moduleName.getD ((stem? path).getD defaultModuleName)
  let fail (e : BuildError) := failWith s!"Failed to compile to {path}" (causes (.build e))
  match ← lowerAloud m p with
  | .error e => fail e
  | .ok _ =>
    match Executable.build p name with
    | .error e => fail e
    | .ok e =>
      log m .debug "assembled executable" [("code", toString e.code.size), ("module", name)]
      match ← e.save path with
      | .error e => fail e
      | .ok e =>
        log m .info "wrote executable" [("path", path), ("bytes", toString e.bytes.size)]
        exitWith 0

/-- Make a program ready to run. -/
def runProgram (m : Manner) (a : Arguments) (s : SourceText) (p : Program) : Command Next := do
  if a.interpret then
    log m .debug "interpreting program"
      [("instructions", toString p.size), ("can_seek", "false")]
    return .run ⟨m, s, .interpreter p⟩
  else
    let fail (e : BuildError) := failWith "Failed to run program" (causes (.build e))
    match ← lowerAloud m p with
    | .error e => fail e
    | .ok _ =>
      match Routine.compile p .standard with
      | .error e => fail e
      | .ok r =>
        log m .debug "mapped compiled routine" [("bytes", toString r.size)]
        return .run ⟨m, s, .routine r⟩

def runArguments (color : Bool) (a : Arguments) : Command Next := do
  let m : Manner := ⟨color, a.verbosity⟩
  match ← load m a.source with
  | .error f => failWith s!"Could not read {a.source}" [f.text]
  | .ok source =>
    match Config.ofLimits a.tapeLength a.maxDepth with
    | .error e => failWith e.message []
    | .ok c =>
      match scan source.text c with
      | .error e =>
        showDiagnostic m source e.message (some e.position)
        exitWith 1
      | .ok s =>
        let p := s.program c
        log m .debug s!"parsed {source.text.utf8ByteSize} characters of source"
          [("fusions", toString s.fuser.fusions)]
        log m .debug "built program"
          [("instructions", toString p.size), ("tape_length", toString p.tapeLength)]
        if a.printSource || a.printListing then printProgram m a p
        else
          match a.output with
          | some path => writeProgram m a p path
          | none => runProgram m a source p

def versionText : String := "bfc-jit 0.1.0\n"

def helpText : String :=
  "\n".intercalate [
    "Run a BF program, or compile it to a standalone Linux x86-64 executable",
    "",
    "Usage: bfc-jit [OPTIONS] <SOURCE>",
    "",
    "Options:",
    "  -s, --tape-length <TAPE_LENGTH>  Number of cells on the tape [default: 30000]",
    "  -d, --max-depth <MAX_DEPTH>      Loops may not be nested this deep [default: 256]",
    "  -i, --interpret                  Interpret instead of compiling to native code",
    "  -o, --output <PATH>              Write an executable to PATH instead of running",
    "      --module-name <NAME>         Name recorded in the executable",
    "      --dump-ir                    Print the optimised program as BF source",
    "      --dump-asm                   Print the lowered native operations",
    "  -v, --verbose...                 Log more (-v for debug, -vv for trace)",
    "  -h, --help                       Print help",
    "  -V, --version                    Print version",
    ""]

/-- All that a command does before a run. -/
def begin (color : Bool) (args : List String) : Command Next := do
  match Invocation.ofArguments args with
  | .run a => runArguments color a
  | .help =>
    print .standard helpText
    exitWith 0
  | .version =>
    print .standard versionText
    exitWith 0
  | .misuse => exitWith 2

/-- The exit status after a crash. -/
def abandon (c : Crash) : Command UInt8 := do
  print .error (c.message ++ "\n")
  return 101

/-- The exit status after a run, which is reported if it ended early. -/
def conclude (task : Task) (ending : Ending) : Command UInt8 := do
  match ending.verdict with
  | .finished =>
    match task.engine with
    | .interpreter _ =>
      log task.manner .debug "interpreter finished" [("pointer", toString ending.tape.pointer)]
    | .routine _ => pure ()
    return 0
  | .failed (.inputExhausted position) =>
    showDiagnostic task.manner task.source "Input is not enough to feed the program" position
    return 1
  | .failed e =>
    print .error (fatal "Failed to run program" (causes (.run e)))
    return 1
  | .crashed c => abandon c

end TapeLang.CommandLine
