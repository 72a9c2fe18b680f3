import TapeLang.Config

/-!
# Arguments

How a command line is read. Options are flags (`-i`, `--interpret`) or settings with a value
(`-s 5`, `-s5`, `-s=5`, `--tape-length 5`, `--tape-length=5`). Several short options may share one
dash. Everything behind `--` is a plain argument, and so is a lone dash. Each option but `-v` may be
given once, and exactly one plain argument, the source, is needed.

`Invocation.ofArguments` reads from left to right; the first request for help or the version, or the
first fault, decides.
-/

namespace TapeLang.CommandLine

structure Arguments where
  source : String
  tapeLength : Nat
  maxDepth : Nat
  interpret : Bool
  /-- Write an executable here instead of running the program. -/
  output : Option String
  moduleName : Option String
  printSource : Bool
  printListing : Bool
  verbosity : Nat
deriving DecidableEq

/-- What a command line asks for. -/
inductive Invocation where
  | run (a : Arguments)
  | help
  | version
  | misuse
deriving DecidableEq

/-- An option without a value. -/
inductive Flag where
  | interpret
  | printSource
  | printListing
  | verbose
  | help
  | version
deriving DecidableEq

/-- An option with a value. -/
inductive Setting where
  | tapeLength
  | maxDepth
  | output
  | moduleName
deriving DecidableEq

def Flag.ofName? : String → Option Flag
  | "interpret" => some interpret
  | "dump-ir" => some printSource
  | "dump-asm" => some printListing
  | "verbose" => some verbose
  | "help" => some help
  | "version" => some version
  | _ => none

def Flag.ofLetter? : Char → Option Flag
  | 'i' => some interpret
  | 'v' => some verbose
  | 'h' => some help
  | 'V' => some version
  | _ => none

def Setting.ofName? : String → Option Setting
  | "tape-length" => some tapeLength
  | "max-depth" => some maxDepth
  | "output" => some output
  | "module-name" => some moduleName
  | _ => none

def Setting.ofLetter? : Char → Option Setting
  | 's' => some tapeLength
  | 'd' => some maxDepth
  | 'o' => some output
  | _ => none

/-- What has been given so far. -/
structure Given where
  source : Option String
  tapeLength : Option Nat
  maxDepth : Option Nat
  interpret : Bool
  output : Option String
  moduleName : Option String
  printSource : Bool
  printListing : Bool
  verbosity : Nat
deriving DecidableEq

namespace Given

def nothing : Given := ⟨none, none, none, false, none, none, false, false, 0⟩

/-- A number of at most 64 bits: decimal digits, perhaps behind a plus sign. -/
def number? (s : String) : Option Nat :=
  let digits := if s.startsWith "+" then (s.drop 1).toString.toList else s.toList
  if digits.isEmpty || !digits.all Char.isDigit then none
  else
    let n := digits.foldl (fun n c => 10 * n + (c.toNat - '0'.toNat)) 0
    if n < UInt64.size then some n else none

/-- Take in a plain argument. -/
def plain (g : Given) (value : String) : Except Invocation Given :=
  if g.source.isSome then .error .misuse else .ok { g with source := some value }

def flag (g : Given) : Flag → Except Invocation Given
  | .interpret => if g.interpret then .error .misuse else .ok { g with interpret := true }
  | .printSource => if g.printSource then .error .misuse else .ok { g with printSource := true }
  | .printListing => if g.printListing then .error .misuse else .ok { g with printListing := true }
  | .verbose => .ok { g with verbosity := g.verbosity + 1 }
  | .help => .error .help
  | .version => .error .version

def setting (g : Given) (s : Setting) (value : String) : Except Invocation Given :=
  match s with
  | .tapeLength =>
    match g.tapeLength, number? value with
    | none, some n => .ok { g with tapeLength := some n }
    | _, _ => .error .misuse
  | .maxDepth =>
    match g.maxDepth, number? value with
    | none, some n => .ok { g with maxDepth := some n }
    | _, _ => .error .misuse
  | .output =>
    if g.output.isSome || value.isEmpty then .error .misuse
    else .ok { g with output := some value }
  | .moduleName =>
    if g.moduleName.isSome then .error .misuse else .ok { g with moduleName := some value }

/-- Short options that share a dash. A setting takes the rest as its value; with no rest it needs
the next argument. -/
def letters (g : Given) : List Char → Except Invocation (Given × Option Setting)
  | [] => .ok (g, none)
  | c :: rest =>
    match Flag.ofLetter? c, Setting.ofLetter? c with
    | some f, _ =>
      match g.flag f with
      | .ok g => g.letters rest
      | .error e => .error e
    | none, some s =>
      match rest with
      | [] => .ok (g, some s)
      | '=' :: value => (g.setting s (String.ofList value)).map fun g => (g, none)
      | value => (g.setting s (String.ofList value)).map fun g => (g, none)
    | none, none => .error .misuse

/-- A long option, without its dashes. -/
def long (g : Given) (option : List Char) : Except Invocation (Given × Option Setting) :=
  let name := String.ofList (option.takeWhile (· ≠ '='))
  match Flag.ofName? name, Setting.ofName? name, option.dropWhile (· ≠ '=') with
  | some f, _, [] => (g.flag f).map fun g => (g, none)
  | none, some s, [] => .ok (g, some s)
  | none, some s, _ :: value => (g.setting s (String.ofList value)).map fun g => (g, none)
  | _, _, _ => .error .misuse

/-- Whether an argument is an option, and so no value of the one before it. -/
def isOption (argument : String) : Bool :=
  match argument.toList with
  | '-' :: _ :: _ => true
  | _ => false

/-- All the arguments, `awaiting` being a setting whose value comes next. -/
def arguments (g : Given) (awaiting : Option Setting) : List String → Except Invocation Given
  | [] => if awaiting.isSome then .error .misuse else .ok g
  | a :: rest =>
    match awaiting with
    | some s =>
      if isOption a then .error .misuse
      else
        match g.setting s a with
        | .ok g => g.arguments none rest
        | .error e => .error e
    | none =>
      match a.toList with
      | ['-', '-'] => rest.foldlM plain g
      | '-' :: '-' :: option =>
        match g.long option with
        | .ok (g, awaiting) => g.arguments awaiting rest
        | .error e => .error e
      | '-' :: c :: more =>
        match g.letters (c :: more) with
        | .ok (g, awaiting) => g.arguments awaiting rest
        | .error e => .error e
      | _ =>
        match g.plain a with
        | .ok g => g.arguments none rest
        | .error e => .error e

/-- A module name is of no use without an output. -/
def complete (g : Given) : Invocation :=
  match g.source with
  | none => .misuse
  | some source =>
    if g.moduleName.isSome && g.output.isNone then .misuse
    else
      .run {
        source
        tapeLength := g.tapeLength.getD Config.standard.tapeLength
        maxDepth := g.maxDepth.getD Config.standard.maxDepth
        interpret := g.interpret
        output := g.output
        moduleName := g.moduleName
        printSource := g.printSource
        printListing := g.printListing
        verbosity := g.verbosity }

end Given

def Invocation.ofArguments (args : List String) : Invocation :=
  match Given.nothing.arguments none args with
  | .ok g => g.complete
  | .error i => i

end TapeLang.CommandLine
