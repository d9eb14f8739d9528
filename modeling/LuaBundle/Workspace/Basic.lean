import LuaBundle.OrderedMap
import LuaBundle.Path
import LuaBundle.Text.Utf8
import LuaBundle.Workspace.Fault

/-! A file system as a value, with a working directory. Entries stand under the list of their
names from the root. Where a path leads is decided name by name: links are followed, at most forty
of them, `..` leaves the directory reached so far, and only a directory can be entered. -/

namespace LuaBundle

/-- The mode of a file: its bits, and whether the process may read the file, which they decide
together with the owner of the file and the rights of the process. -/
structure Mode where
  bits : Nat
  readable : Bool := true
  deriving DecidableEq, Repr

/-- The mode of a file that may be read. -/
instance (bits : Nat) : OfNat Mode bits := ⟨{ bits }⟩

inductive Node where
  | directory
  | file (content : Bytes) (mode : Mode)
  | link (target : Text)
  deriving DecidableEq, Repr

/-- The names on the way from the root. -/
abbrev Location := List Text

structure Workspace where
  /-- The working directory, an absolute path. -/
  base : Text
  entries : OrderedMap Location Node
  deriving DecidableEq

/-- Where a path leads: to an entry, or to a free name in a directory. -/
inductive Place where
  | taken (location : Location) (node : Node)
  | free (location : Location)
  deriving DecidableEq

namespace Workspace

/-- The entry at a location. The root is always a directory. -/
def node? (w : Workspace) (l : Location) : Option Node :=
  if l = [] then some .directory else w.entries.get? l

def put (w : Workspace) (l : Location) (n : Node) : Workspace :=
  { w with entries := w.entries.insert l n }

/-- The workspace without an entry and all entries below it. -/
def erase (w : Workspace) (l : Location) : Workspace :=
  { w with entries := w.entries.filter fun e => !l.isPrefixOf e.1 }

/-- The longest name that a file system stores, in bytes. -/
def longestName : Nat := 255

/-- The longest path that a file system accepts, in bytes. -/
def longestPath : Nat := 4095

/-- The number of links that are followed on the way to one file. -/
def mostLinks : Nat := 40

/-- What a path is looked up for. -/
inductive Purpose where
  /-- The entry itself, also where it is a link. -/
  | inspect
  /-- What the entry leads to. -/
  | reach
  /-- A file to be written, there or not. A path with a slash at its end is no path of a file. -/
  | write
  deriving DecidableEq, Repr

/-- The place that the parts of a path lead to from a directory. Where a link is met, `follow` goes
on, from the directory of the link, what it holds, and the parts after it. -/
def walkFrom (w : Workspace) (purpose : Purpose)
    (follow : Location → Text → List Text → Except Fault Place) (dir : Location) :
    List Text → Except Fault Place
  | [] => .ok (.taken dir .directory)
  | part :: rest =>
    if part = [] ∨ part = [Text.dot] then walkFrom w purpose follow dir rest
    else if part = [Text.dot, Text.dot] then walkFrom w purpose follow dir.dropLast rest
    else if longestName < (Utf8.encode part).length then .error .nameTooLong
    else if purpose = .write ∧ rest ≠ [] ∧ rest.all (·.isEmpty) then .error .isDirectory
    else
      let l := dir ++ [Text.wellFormed part]
      match w.node? l with
      | none => if rest = [] then .ok (.free l) else .error .noEntry
      | some .directory => walkFrom w purpose follow l rest
      | some (.file content mode) =>
        if rest = [] then .ok (.taken l (.file content mode)) else .error .notDirectory
      | some (.link target) =>
        if rest = [] ∧ purpose = .inspect then .ok (.taken l (.link target))
        else follow dir target rest

/-- The place that the parts of a path lead to over at most `links` links. -/
def walk (w : Workspace) (purpose : Purpose) : Nat → Location → List Text → Except Fault Place
  | 0 => walkFrom w purpose fun _ _ _ => .error .tooManyLinks
  | links + 1 => walkFrom w purpose fun dir target rest =>
    if target = [] then .error .noEntry
    else
      walk w purpose links (if Path.isAbsolute target then [] else dir) (Path.parts target ++ rest)

/-- The place of a path, from the working directory if it is relative. -/
def locate (w : Workspace) (purpose : Purpose) (path : Text) : Except Fault Place :=
  if path = [] then .error .noEntry
  else if longestPath < (Utf8.encode path).length then .error .nameTooLong
  else
    walk w purpose mostLinks (if Path.isAbsolute path then [] else Path.walk [] w.base)
      (Path.parts path)

def entry (w : Workspace) (purpose : Purpose) (path : Text) : Except Fault (Location × Node) :=
  match w.locate purpose path with
  | .ok (.taken l n) => .ok (l, n)
  | .ok (.free _) => .error .noEntry
  | .error fault => .error fault

def absolute (w : Workspace) (path : Text) : Text := Path.resolve w.base [path]

end Workspace

end LuaBundle
