import TapeLang.Shell

/-!
# A file system in memory

Entries at places, and the rules by which a path leads to a place: it is walked from the working
directory (or the root) through directories that exist, an empty name or `.` stays where it is, and
`..` goes up. Symbolic links are left out: each name in a directory is that of a file or of another
directory.
-/

namespace TapeLang

inductive Entry where
  | file (content : Array UInt8) (isExecutable : Bool)
  | directory
deriving DecidableEq

/-- A place below the working directory, or below one of the directories above it, or below the
root. `names` has the innermost first. -/
structure Place where
  isAbsolute : Bool
  above : Nat
  names : List String
deriving DecidableEq

namespace Place

def start (isAbsolute : Bool) : Place := ⟨isAbsolute, 0, []⟩

def up (p : Place) : Place :=
  match p.names with
  | _ :: outer => { p with names := outer }
  | [] => if p.isAbsolute then p else { p with above := p.above + 1 }

def down (p : Place) (name : String) : Place := { p with names := name :: p.names }

end Place

structure FileSystem where
  entries : List (Place × Entry)
deriving DecidableEq

namespace FileSystem

/-- The working directory, those above it and the root always exist. -/
def entry? (fs : FileSystem) (p : Place) : Option Entry :=
  if p.names.isEmpty then some .directory else fs.entries.lookup p

def insert (fs : FileSystem) (p : Place) (e : Entry) : FileSystem :=
  ⟨(p, e) :: fs.entries.filter (·.1 ≠ p)⟩

def erase (fs : FileSystem) (p : Place) : FileSystem := ⟨fs.entries.filter (·.1 ≠ p)⟩

/-! ## Paths -/

/-- The longest name of a file, and the longest path, in bytes. -/
def maxName : Nat := 255
def maxPath : Nat := 4095

/-- What is wrong with a path whatever the file system holds. -/
def fault? (path : String) : Option Failure :=
  if path.contains '\x00' then some .zeroInName
  else if path.isEmpty then some .noSuchFile
  else if maxPath < path.utf8ByteSize then some .nameTooLong
  else none

def components (path : String) : List String := (path.toList.splitOn '/').map String.ofList

/-- Whether a step through `name` needs an entry of that name. -/
def isOrdinary (name : String) : Bool := name != "" && name != "." && name != ".."

/-- From directory `p` to `name`, which need not exist. -/
def enter (p : Place) (name : String) : Except Failure Place :=
  if name = ".." then .ok p.up
  else if !isOrdinary name then .ok p
  else if maxName < name.utf8ByteSize then .error .nameTooLong
  else .ok (p.down name)

/-- From `p` through `names`, all but the last of which must lead to directories. -/
def walk (fs : FileSystem) (p : Place) : List String → Except Failure Place
  | [] => .ok p
  | name :: rest =>
    match fs.entry? p with
    | some .directory =>
      match enter p name with
      | .ok p => walk fs p rest
      | .error f => .error f
    | some (.file _ _) => .error .notDirectory
    | none => .error .noSuchFile

/-- The place that a path names. -/
def resolve (fs : FileSystem) (path : String) : Except Failure Place :=
  match fault? path with
  | some f => .error f
  | none => fs.walk (.start (path.startsWith "/")) (components path)

/-- What is at a path. -/
def find (fs : FileSystem) (path : String) : Except Failure Entry :=
  match fs.resolve path with
  | .error f => .error f
  | .ok p =>
    match fs.entry? p with
    | some e => .ok e
    | none => .error .noSuchFile

/-- The place where a new file may be made. A path to a directory, by its end or by what is there,
names none. -/
def freePlace (fs : FileSystem) (path : String) : Except Failure Place :=
  match fault? path with
  | some f => .error f
  | none =>
    let names := (components path).reverse.dropWhile (· = "")
    match names with
    | [] => .error .fileExists
    | last :: outer =>
      match fs.walk (.start (path.startsWith "/")) outer.reverse with
      | .error f => .error f
      | .ok p =>
        match fs.entry? p with
        | none => .error .noSuchFile
        | some (.file _ _) => .error .notDirectory
        | some .directory =>
          if !isOrdinary last then .error .fileExists
          else if path.endsWith "/" then .error .isDirectory
          else
            match enter p last with
            | .error f => .error f
            | .ok p => if (fs.entry? p).isSome then .error .fileExists else .ok p

/-! ## Making file systems -/

def empty : FileSystem := ⟨[]⟩

/-- Go from `p` through `names` and make a directory wherever nothing is. Also gives the place that
was reached. -/
def makeDirectories (fs : FileSystem) (p : Place) : List String → FileSystem × Place
  | [] => (fs, p)
  | name :: rest =>
    match enter p name with
    | .ok q =>
      let fs := if (fs.entry? q).isSome then fs else fs.insert q .directory
      fs.makeDirectories q rest
    | .error _ => (fs, p)

/-- A directory at `path`, and all the directories on the way to it. -/
def withDirectory (fs : FileSystem) (path : String) : FileSystem :=
  (fs.makeDirectories (.start (path.startsWith "/")) (components path)).1

/-- A file at `path`, and all the directories on the way to it. -/
def withFile (fs : FileSystem) (path : String) (content : Array UInt8) (isExecutable : Bool) :
    FileSystem :=
  let names := components path
  let (fs, p) := fs.makeDirectories (.start (path.startsWith "/")) names.dropLast
  match enter p (names.getLastD "") with
  | .ok q => fs.insert q (.file content isExecutable)
  | .error _ => fs

/-! ## Requests -/

def isFile (fs : FileSystem) (path : String) : Bool :=
  match fs.find path with
  | .ok (.file _ _) => true
  | _ => false

def read (fs : FileSystem) (path : String) : Except Failure (Array UInt8) :=
  match fs.find path with
  | .ok (.file content _) => .ok content
  | .ok .directory => .error .isDirectory
  | .error f => .error f

def create (fs : FileSystem) (path : String) : Except Failure Unit × FileSystem :=
  match fs.freePlace path with
  | .ok p => (.ok (), fs.insert p (.file #[] true))
  | .error f => (.error f, fs)

def write (fs : FileSystem) (path : String) (content : Array UInt8) :
    Except Failure Unit × FileSystem :=
  match fs.resolve path with
  | .error f => (.error f, fs)
  | .ok p =>
    match fs.entry? p with
    | some (.file _ isExecutable) => (.ok (), fs.insert p (.file content isExecutable))
    | some .directory => (.error .isDirectory, fs)
    | none => (.error .noSuchFile, fs)

def remove (fs : FileSystem) (path : String) : Except Failure Unit × FileSystem :=
  match fs.resolve path with
  | .error f => (.error f, fs)
  | .ok p =>
    match fs.entry? p with
    | some (.file _ _) => (.ok (), fs.erase p)
    | some .directory => (.error .isDirectory, fs)
    | none => (.error .noSuchFile, fs)

end FileSystem

/-- A file system and what was printed. -/
structure Terminal where
  files : FileSystem
  output : String
  errors : String
deriving DecidableEq

namespace Terminal

def device : Device shell Terminal
  | .isFile path, t => (t.files.isFile path, t)
  | .read path, t => (t.files.read path, t)
  | .create path, t =>
    let (reply, files) := t.files.create path
    (reply, { t with files })
  | .write path content, t =>
    let (reply, files) := t.files.write path content
    (reply, { t with files })
  | .sync _, t => (.ok (), t)
  | .remove path, t =>
    let (reply, files) := t.files.remove path
    (reply, { t with files })
  | .print .standard text, t => ((), { t with output := t.output ++ text })
  | .print .error text, t => ((), { t with errors := t.errors ++ text })

end Terminal

end TapeLang
