import Netlist.Error
import Netlist.FileSystem.Path

/-!
# File systems

A file system maps places, which are lists of names from the root down, to files and directories. It
has a working directory, which relative paths start from; that directory and those above it are
always there.

What a program may do with files is the interface `Files`: read a file, write a file as a whole,
make a directory together with the ones above it. `StateT FileSystem` does it with the model here.
-/

namespace Netlist

inductive Entry where
  | file (content : Text)
  | directory
  deriving DecidableEq, Repr

abbrev Place := List Text

structure FileSystem where
  working : Place
  entries : List (Place × Entry) := []
  deriving DecidableEq, Repr

class Files (m : Type → Type) where
  read : (path : Text) → m (Except FileError Text)
  write : (path content : Text) → m (Except FileError Unit)
  makeDirectories : (path : Text) → m (Except FileError Unit)

namespace FileSystem

def entry? (fs : FileSystem) (p : Place) : Option Entry :=
  if p.isPrefixOf fs.working then some .directory else fs.entries.lookup p

def put (fs : FileSystem) (p : Place) (e : Entry) : FileSystem :=
  { fs with entries := (p, e) :: fs.entries.filter (·.1 ≠ p) }

/-- A name may have so many bytes. -/
def nameLimit : Nat := 255

/-- A path has fewer bytes than this. -/
def pathLimit : Nat := 4096

/-- Follows names from a place. Every place but the last must be a directory. -/
def follow (fs : FileSystem) : Place → List Text → Except FileFault Place
  | p, [] => .ok p
  | p, name :: names => match fs.entry? p with
    | none => .error .absent
    | some (.file _) => .error .notDirectory
    | some .directory =>
      if Path.isTrivial name then follow fs p names
      else if name = ".." then follow fs p.dropLast names
      else if nameLimit < name.length then .error .nameTooLong
      else follow fs (p ++ [name]) names

/-- Refuses what is no path, before anything is looked up. -/
def checkPath (path : Text) : Except FileFault Unit :=
  if path.isEmpty then .error .absent
  else if 0 ∈ path then .error .invalid
  else if pathLimit ≤ path.length then .error .nameTooLong
  else .ok ()

/-- Where the names of a path are followed from. -/
def start (fs : FileSystem) (path : Text) : Place :=
  if Path.isAbsolute path then [] else fs.working

/-- The place that a path leads to, which may be empty. -/
def resolve (fs : FileSystem) (path : Text) : Except FileFault Place := do
  checkPath path
  fs.follow (fs.start path) (Path.names path)

/-- The place at the end of a path and what stands there. -/
def status? (fs : FileSystem) (path : Text) : Option (Place × Entry) := do
  let p ← (fs.resolve path).toOption
  return (p, ← fs.entry? p)

def readFile (fs : FileSystem) (path : Text) : Except FileError Text :=
  match fs.resolve path with
  | .error fault => .error ⟨.opening, path, fault⟩
  | .ok p => match fs.entry? p with
    | none => .error ⟨.opening, path, .absent⟩
    | some .directory => .error ⟨.reading, path, .isDirectory⟩
    | some (.file content) => .ok content

/-- The place of a file that is to be created or replaced. A slash at the end asks for a directory,
as soon as there is one to look in. -/
def target (fs : FileSystem) (path : Text) : Except FileFault Place := do
  checkPath path
  let bare := Path.dropSlashes path
  let names := Path.names bare
  if bare = path then
    let p ← fs.follow (fs.start path) names
    if fs.entry? p = some .directory then .error .isDirectory else return p
  else
    let _ ← fs.follow (fs.start path) (names.dropLast ++ [Text.ofString "."])
    .error .isDirectory

def writeFile (fs : FileSystem) (path content : Text) : Except FileError FileSystem :=
  match fs.target path with
  | .error fault => .error ⟨.opening, path, fault⟩
  | .ok p => .ok (fs.put p (.file content))

/-- Makes the directory at the end of a path, in the directory at the place `above` that the path
goes through last. Its own place comes with the result. -/
def makeDirectory (fs : FileSystem) (above : Place) (path : Text) :
    Except FileError (Place × FileSystem) :=
  match checkPath path *> fs.follow above [Path.lastName path] with
  | .error fault => .error ⟨.creating, path, fault⟩
  | .ok p => match fs.entry? p with
    | none => .ok (p, fs.put p .directory)
    | some .directory => .ok (p, fs)
    | some (.file _) => .error ⟨.creating, path, .occupied⟩

/-- Makes a directory and the ones above it, as far as they are missing, and gives its place. Those
that could be made stay if a later one cannot. A path has at most `levels` levels. -/
def makePath : (levels : Nat) → (path : Text) → StateM FileSystem (Except FileError Place)
  | 0, path => return .ok ((← get).start path)
  | levels + 1, path => do
    match (← get).status? path with
    | some (p, .directory) => return .ok p
    | some (_, .file _) => return .error ⟨.creating, path, .notDirectory⟩
    | none =>
      let above ← match Path.parent? path with
        | some parent => makePath levels parent
        | none => pure (.ok ((← get).start path))
      match above with
      | .error e => return .error e
      | .ok p => match (← get).makeDirectory p path with
        | .error e => return .error e
        | .ok (made, fs) => do
          set fs
          return .ok made

def makeAllDirectories (path : Text) : StateM FileSystem (Except FileError Unit) := do
  return (← makePath (path.length + 1) path).map fun _ => ()

/-- The files below the working directory, each with its path from there. -/
def files (fs : FileSystem) : List (Text × Text) :=
  fs.entries.filterMap fun (p, e) => match e, fs.working.isPrefixOf? p with
    | .file content, some below => some (Text.join "/" below, content)
    | _, _ => none

instance {n : Type → Type} [Monad n] : Files (StateT FileSystem n) where
  read path := do return (← get).readFile path
  write path content := do
    match (← get).writeFile path content with
    | .error e => return .error e
    | .ok fs => do
      set fs
      return .ok ()
  makeDirectories path := modifyGet (makeAllDirectories path)

end FileSystem

end Netlist
