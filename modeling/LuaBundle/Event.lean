import LuaBundle.Number.Shortest
import LuaBundle.Path

/-! The steps of a run as they are reported, in order, and the line that shows each. -/

namespace LuaBundle

open Text

inductive Event where
  | visit (path : Text) (depth : Number)
  | resolve (moduleName requiredBy resolvedPath : Text)
  | skipBuiltin (moduleName requiredBy : Text)
  | mergeExplicit (path : Text)
  | bundleWritten (outputPath : Text)
  | engineInvoked (engine : Text) (command : List Text)
  deriving DecidableEq, Repr

namespace Event

/-- A path from the directory `base`, or as it is if it names that directory. -/
def shownPath (base path : Text) : Text :=
  match Path.relative base base path with
  | [] => path
  | shown => shown

def requiring (moduleName : Text) : Text :=
  ofString "  require " ++ doubleQuote :: moduleName ++ [doubleQuote]

def text (base : Text) : Event → Text
  | visit path depth =>
    ofString "Scanning " ++ shownPath base path ++ " (depth " ++ depth.text ++ [rightParen]
  | resolve moduleName _ resolvedPath =>
    requiring moduleName ++ " -> " ++ shownPath base resolvedPath
  | skipBuiltin moduleName _ => requiring moduleName ++ " (standard library, not embedded)"
  | mergeExplicit path => ofString "Adding " ++ shownPath base path
  | bundleWritten outputPath => ofString "Bundle written to " ++ shownPath base outputPath
  | engineInvoked engine command =>
    ofString "Running [" ++ engine ++ "]: " ++ joinWith [space] command

end Event

end LuaBundle
