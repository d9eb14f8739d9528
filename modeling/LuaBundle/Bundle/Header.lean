import LuaBundle.Bundle.Names
import LuaBundle.Manifest
import LuaBundle.Source.Quoted

/-! The comment at the top of a bundle: which modules it embeds, and from which files. -/

namespace LuaBundle.Bundle

open Text

/-- A text for a comment of one line: control characters are written as a backslash and three
digits, since a line break would end the comment. -/
def commentText (t : Text) : Text :=
  t.flatMap fun u => if Quoted.isControl u then Quoted.numeric u else [u]

def headerLine (e : ManifestEntry) : Text :=
  ofString "--   " ++ commentText e.key ++ ": " ++ commentText e.path

/-- The comment lines, each ended by a line feed. -/
def header (version : Text) (manifest : Manifest) : Text :=
  joinWith [lineFeed]
    ([ofString "-- Bundled by luastitch " ++ version, ofString "-- Embedded modules:"] ++
      manifest.map headerLine ++ [ofString "-- WARNING: Do not modify this file manually", []])

end LuaBundle.Bundle
