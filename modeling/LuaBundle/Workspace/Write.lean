import LuaBundle.Workspace.Read

/-! Changes to a workspace. Each operation returns the workspace it leaves; one that fails before
it has changed anything returns the one it was given. -/

namespace LuaBundle.Workspace

def newFileMode : Mode := 0o644

def executableMode : Mode := 0o755

/-- Writes a file, through links. A new one gets the usual mode, an old one keeps its own. -/
def writeBytes (w : Workspace) (path : Text) (content : Bytes) : Except FileError Workspace :=
  if isPath path then
    match w.locate .write path with
    | .ok (.free l) => .ok (w.put l (.file content newFileMode))
    | .ok (.taken l (.file _ mode)) => .ok (w.put l (.file content mode))
    | .ok (.taken _ _) => .error (.failed .isDirectory (.openFile path))
    | .error fault => .error (.failed fault (.openFile path))
  else .error (.zeroInPath .only path)

def writeText (w : Workspace) (path : Text) (t : Text) : Except FileError Workspace :=
  w.writeBytes path (Utf8.encode t)

def makeDirectory (w : Workspace) (path : Text) : Except Fault Workspace :=
  match w.locate .inspect path with
  | .ok (.free l) => .ok (w.put l .directory)
  | .ok (.taken _ _) => .error .fileExists
  | .error fault => .error fault

/-- What a directory that could not be made comes to: nothing is wrong where the path leads to
one. `below` tells that it was needed for a directory below it. -/
def settle (w : Workspace) (below : Bool) (path : Text) (fault : Fault) : Except Fault Unit :=
  match w.entry .reach path with
  | .error other => .error other
  | .ok (_, .directory) => .ok ()
  | .ok _ => .error (if below ∧ fault = .fileExists then .notDirectory else .fileExists)

/-- Makes the directory with the given names, the last one first, and those above it that are
missing. -/
def makeChain (w : Workspace) (below : Bool) : List Text → Except Fault Unit × Workspace
  | [] => (w.settle below [Text.slash] .fileExists, w)
  | name :: above =>
    let path := Path.render (name :: above).reverse
    match w.makeDirectory path with
    | .ok made => (.ok (), made)
    | .error .notDirectory => (.error .notDirectory, w)
    | .error .noEntry =>
      match w.makeChain true above with
      | (.error fault, left) => (.error fault, left)
      | (.ok (), left) =>
        match left.makeDirectory path with
        | .ok made => (.ok (), made)
        | .error fault => (left.settle below path fault, left)
    | .error fault => (w.settle below path fault, w)

/-- Makes a directory and all that are missing above it. -/
def makeDirectories (w : Workspace) (path : Text) : Except FileError Unit × Workspace :=
  if isPath path then
    let (result, left) := w.makeChain false (Path.walk [] path).reverse
    (result.mapError fun fault => .failed fault (.makeDirectory path), left)
  else (.error (.zeroInPath .only path), w)

/-- Makes a directory that did not exist. -/
def makeTemporary (w : Workspace) (path : Text) : Except FileError Workspace :=
  (w.makeDirectory path).mapError fun fault => .failed fault (.makeTemporary path)

/-- Removes the entry itself that a path leads to, and what is below it. -/
def removeAll (w : Workspace) (path : Text) : Workspace :=
  match w.entry .inspect path with
  | .ok (l, _) => w.erase l
  | .error _ => w

/-- Removes a file or link; one that is missing is no fault. -/
def removeFile (w : Workspace) (path : Text) : Except FileError Workspace :=
  if isPath path then
    match w.entry .inspect path with
    | .ok (_, .directory) => .error (.failed .isDirectory (.remove path))
    | .ok (l, _) => .ok (w.erase l)
    | .error .noEntry => .ok w
    | .error fault => .error (.failed fault (.remove path))
  else .error (.zeroInPath .only path)

def changeMode (w : Workspace) (path : Text) (mode : Mode) : Except FileError Workspace :=
  if isPath path then
    match w.entry .reach path with
    | .ok (l, .file content _) => .ok (w.put l (.file content mode))
    | .ok _ => .ok w
    | .error fault => .error (.failed fault (.changeMode path))
  else .error (.zeroInPath .only path)

/-- Copies a file with its mode, through links, between paths that both hold no zero. The target is
opened before the source is read: two paths of one file leave it as it is, and a source that is a
directory costs an existing target its content and its name. -/
def copyPath (w : Workspace) (source target : Text) : Except FileError Unit × Workspace :=
  let failed (fault : Fault) : Except FileError Unit :=
    .error (.failed fault (.copy source target))
  match w.opened source with
  | .error fault => (failed fault, w)
  | .ok (sourceLocation, node) =>
    match w.locate .write target with
    | .error fault => (failed fault, w)
    | .ok (.taken _ .directory) | .ok (.taken _ (.link _)) => (failed .isDirectory, w)
    | .ok (.taken l (.file _ _)) | .ok (.free l) =>
      match node with
      | .file content mode =>
        if l = sourceLocation then (.ok (), w) else (.ok (), w.put l (.file content mode))
      | _ => (failed .isDirectory, (w.put l (.file [] executableMode)).removeAll target)

/-- Copies a file. Both paths are looked at before either is followed, the source first. -/
def copyFile (w : Workspace) (source target : Text) : Except FileError Unit × Workspace :=
  if !isPath source then (.error (.zeroInPath .source source), w)
  else if !isPath target then (.error (.zeroInPath .target target), w)
  else w.copyPath source target

/-- Adds a link; its target need not exist. -/
def makeLink (w : Workspace) (path target : Text) : Except FileError Workspace :=
  match w.locate .inspect path with
  | .ok (.free l) => .ok (w.put l (.link target))
  | .ok (.taken _ _) => .error (.failed .fileExists (.openFile path))
  | .error fault => .error (.failed fault (.openFile path))

end LuaBundle.Workspace
