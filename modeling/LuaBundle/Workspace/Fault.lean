import LuaBundle.Text.Shown

/-! Why an access to a file fails, and the text that reports it: the code and wording of the
system's error, the call that met it, and the paths it was given. -/

namespace LuaBundle

inductive Fault where
  | noEntry
  | notDirectory
  | isDirectory
  | fileExists
  | tooManyLinks
  | nameTooLong
  | accessDenied
  deriving DecidableEq, Repr

/-- The call that meets a fault. -/
inductive Access where
  | openFile (path : Text)
  | readFile
  | makeDirectory (path : Text)
  | makeTemporary (path : Text)
  | copy (source target : Text)
  | changeMode (path : Text)
  | remove (path : Text)
  | inspect (path : Text)
  | follow (path : Text)
  deriving DecidableEq, Repr

/-- What a path is to the call that is given it. -/
inductive PathRole where
  | only
  | source
  | target
  deriving DecidableEq, Repr

inductive FileError where
  | failed (fault : Fault) (access : Access)
  /-- No path holds a zero unit. -/
  | zeroInPath (role : PathRole) (path : Text)
  deriving DecidableEq, Repr

namespace Fault

def code : Fault → Text
  | noEntry => "ENOENT"
  | notDirectory => "ENOTDIR"
  | isDirectory => "EISDIR"
  | fileExists => "EEXIST"
  | tooManyLinks => "ELOOP"
  | nameTooLong => "ENAMETOOLONG"
  | accessDenied => "EACCES"

def description : Fault → Text
  | noEntry => "no such file or directory"
  | notDirectory => "not a directory"
  | isDirectory => "illegal operation on a directory"
  | fileExists => "file already exists"
  | tooManyLinks => "too many symbolic links encountered"
  | nameTooLong => "name too long"
  | accessDenied => "permission denied"

end Fault

open Text in
def Access.text : Access → Text
  | openFile path => ofString "open " ++ inSingleQuotes path
  | readFile => "read"
  | makeDirectory path => ofString "mkdir " ++ inSingleQuotes path
  | makeTemporary path => ofString "mkdtemp " ++ inSingleQuotes path
  | copy source target =>
    ofString "copyfile " ++ inSingleQuotes source ++ " -> " ++ inSingleQuotes target
  | changeMode path => ofString "chmod " ++ inSingleQuotes path
  | remove path => ofString "rm " ++ inSingleQuotes path
  | inspect path => ofString "lstat " ++ inSingleQuotes path
  | follow path => ofString "stat " ++ inSingleQuotes path

/-- The name of a path among the arguments of a call. -/
def PathRole.argument : PathRole → Text
  | only => "path"
  | source => "src"
  | target => "dest"

namespace FileError

open Text

def code : FileError → Text
  | failed fault _ => fault.code
  | zeroInPath _ _ => "ERR_INVALID_ARG_VALUE"

def message : FileError → Text
  | failed fault access => fault.code ++ ": " ++ fault.description ++ ", " ++ access.text
  | zeroInPath role path =>
    ofString "The argument " ++ inSingleQuotes role.argument ++
      " must be a string, Uint8Array, or URL without null bytes. Received " ++ shown path

end FileError

end LuaBundle
