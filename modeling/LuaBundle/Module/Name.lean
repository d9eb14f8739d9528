import LuaBundle.Path

/-! Names of modules and the files they may stand for. A dotted name maps its dots to directories;
a name with a slash is a path already. Under each search root a script is `<name>.lua` or, for a
directory, its `init.lua`; native libraries are looked for under four endings. -/

namespace LuaBundle.ModuleName

open Text

/-- The modules that the host of a program brings along. -/
def standardLibrary : List Text :=
  ["_G", "coroutine", "debug", "io", "math", "os", "package", "string", "table", "utf8", "bit32",
    "arg"].map ofString

/-- Whether a name, or the name it is dotted below, belongs to the standard library. -/
def isBuiltin (name : Text) : Bool := standardLibrary.contains (name.takeWhile (· != dot))

/-- Whether a name is a path from the file that requires it. -/
def isRelative (name : Text) : Bool :=
  [dot, slash].isPrefixOf name || [dot, dot, slash].isPrefixOf name

/-- The path that a name stands for below a root, without its ending. -/
def relativePath (name : Text) : Text :=
  if name.contains slash then dropSuffix ".lua" name
  else name.map fun u => if u = dot then slash else u

def nativeEndings : List Text := [".so", ".dylib", ".dll", ".a"].map ofString

/-- The scripts that a name may stand for, the first choice first. -/
def scriptCandidates (base : Text) (name : Text) (roots : List Text) : List Text :=
  roots.flatMap fun root =>
    [Path.resolve base [root, relativePath name ++ ".lua"],
      Path.resolve base [root, relativePath name, "init.lua"]]

/-- The native libraries that a name may stand for, the first choice first. -/
def nativeCandidates (base : Text) (name : Text) (roots : List Text) : List Text :=
  roots.flatMap fun root =>
    nativeEndings.map fun ending => Path.resolve base [root, relativePath name ++ ending]

end LuaBundle.ModuleName
