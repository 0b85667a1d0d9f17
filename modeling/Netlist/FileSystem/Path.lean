import Netlist.Text.Basic

/-!
# Paths

A path is a text of names with slashes between them. `clean` gives the shortest path that leads to
the same place when every directory on the way is there: it drops empty names and `.`, and lets `..`
take back the name before it.
-/

namespace Netlist.Path

def slash : UInt8 := 47

def names (path : Text) : List Text := Text.split slash path

def isAbsolute (path : Text) : Bool := path.head? = some slash

def isTrivial (name : Text) : Bool := name.isEmpty || name = "."

/-- A path without the slashes at its end. -/
def dropSlashes (path : Text) : Text := (path.reverse.dropWhile (· == slash)).reverse

/-- The last name of a path, before the slashes at its end. -/
def lastName (path : Text) : Text := (names (dropSlashes path)).getLastD []

/-- The path of the directory that holds the last name of a path, if the path names it. -/
def parent? (path : Text) : Option Text :=
  let front := ((dropSlashes path).reverse.dropWhile (· != slash)).reverse
  if 1 < front.length then some front.dropLast else none

/-- Adds a name to a clean path, which is given in reverse. -/
def push (absolute : Bool) (path : List Text) (name : Text) : List Text :=
  if isTrivial name then path
  else if name = ".." then match path with
    | [] => if absolute then [] else [name]
    | last :: rest => if last = ".." then name :: path else rest
  else name :: path

def clean (path : Text) : Text :=
  let absolute := isAbsolute path
  let joined := Text.join "/" ((names path).foldl (push absolute) []).reverse
  if absolute then "/" ++ joined else if joined.isEmpty then "." else joined

/-- The clean path to a name in a directory. -/
def join (directory name : Text) : Text := clean (directory ++ "/" ++ name)

end Netlist.Path
