import LuaBundle.Workspace.Basic

/-! What can be learned from a workspace without changing it: whether a path leads to a file, what
the file holds, and the one absolute path of a file that has many. -/

namespace LuaBundle.Workspace

/-- Whether a path is text that a file system accepts. -/
def isPath (path : Text) : Bool := !path.contains 0

def pathExists (w : Workspace) (path : Text) : Bool :=
  isPath path && (w.entry .reach path).toBool

/-- Whether a path leads to a regular file. -/
def isFile (w : Workspace) (path : Text) : Bool :=
  isPath path &&
    match w.entry .reach path with
    | .ok (_, .file _ _) => true
    | _ => false

/-- Whether a path leads to a regular file that the process may read. -/
def isReadable (w : Workspace) (path : Text) : Bool :=
  isPath path &&
    match w.entry .reach path with
    | .ok (_, .file _ mode) => mode.readable
    | _ => false

/-- Whether a path leads to a regular file that some class of users may execute. -/
def isExecutable (w : Workspace) (path : Text) : Bool :=
  isPath path &&
    match w.entry .reach path with
    | .ok (_, .file _ mode) => mode.bits &&& 0o111 != 0
    | _ => false

/-- The entry that a path leads to, opened to be read. -/
def opened (w : Workspace) (path : Text) : Except Fault (Location × Node) :=
  match w.entry .reach path with
  | .ok (l, .file content mode) =>
    if mode.readable then .ok (l, .file content mode) else .error .accessDenied
  | found => found

def readBytes (w : Workspace) (path : Text) : Except FileError Bytes :=
  if isPath path then
    match w.opened path with
    | .ok (_, .file content _) => .ok content
    | .ok _ => .error (.failed .isDirectory .readFile)
    | .error fault => .error (.failed fault (.openFile path))
  else .error (.zeroInPath .only path)

def readText (w : Workspace) (path : Text) : Except FileError Text :=
  (w.readBytes path).map Utf8.decode

/-- The names of an absolute path after the links among them are replaced by what they spell, first
to last; a link that does not lead anywhere is an error. `follow` goes on where a link is met, from
its path, the names before it, what it holds, and the names after it. -/
def replaceFrom (w : Workspace)
    (follow : Text → Location → Text → List Text → Except FileError Location) (done : Location) :
    List Text → Except FileError Location
  | [] => .ok done
  | name :: rest =>
    let path := Path.render (done ++ [name])
    match w.entry .inspect path with
    | .error fault => .error (.failed fault (.inspect path))
    | .ok (_, .link target) =>
      match w.entry .reach path with
      | .error fault => .error (.failed fault (.follow path))
      | .ok _ => follow path done target rest
    | .ok _ => replaceFrom w follow (done ++ [name]) rest

/-- The names of an absolute path without links, of which at most `links` are replaced. -/
def withoutLinks (w : Workspace) : Nat → Location → List Text → Except FileError Location
  | 0 => replaceFrom w fun path _ _ _ => .error (.failed .tooManyLinks (.follow path))
  | links + 1 => replaceFrom w fun _ done target rest =>
    withoutLinks w links [] (Path.walk done target ++ rest)

/-- The number of links that the canonical path of a file may take. -/
def mostReplacements : Nat := 1000

/-- The absolute path of an existing file that goes through no link. -/
def canonical (w : Workspace) (path : Text) : Except FileError Text :=
  (w.withoutLinks mostReplacements [] (Path.walk [] (w.absolute path))).map Path.render

end LuaBundle.Workspace
