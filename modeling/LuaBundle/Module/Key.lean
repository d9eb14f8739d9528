import LuaBundle.Path

/-! The keys that modules have in a bundle when only their files are known. -/

namespace LuaBundle.ModuleKey

open Text

/-- The key of the entry: the name of its file without `.lua`. -/
def ofEntry (path : Text) : Text := Path.baseName ".lua" path

/-- The names of a path for the purpose of a key: between slashes of either kind, without empty
names and dots. -/
def segments (path : Text) : List Text :=
  (splitOn (fun u => u == slash || u == backslash) (dropSuffix ".lua" path)).filter fun s =>
    !s.isEmpty && s != [dot]

/-- The key of a file, given its path from the directory of the entry: its names joined by dots,
without `.lua` and, below a directory, without `init`. A file outside that directory is known by
its own name. -/
def ofPath (path : Text) : Text :=
  let names := segments path
  if names.contains [dot, dot] then Path.baseName ".lua" path
  else
    let named :=
      if 1 < names.length ∧ names.getLast? = some (ofString "init") then names.dropLast else names
    joinWith [dot] named

end LuaBundle.ModuleKey
