import LuaBundle.Diagnostic

/-! Why the modules of a program could not all be found. -/

namespace LuaBundle

open Text

inductive AnalysisError where
  /-- A script that was given, or met, cannot be read. -/
  | scriptNotFound (path : Text)
  /-- Modules that require each other; the first one stands at the end again. -/
  | circularDependency (cycle : List Text)
  | dynamicRequire (location : SourceLocation) (rawText : Text)
  | limitExceeded (limit count : Number) (moduleName : Text)
  | moduleNotFound (moduleName requiredBy : Text) (searchedPaths : List Text)
  | nativeModule (moduleName requiredBy nativePath : Text)
  deriving DecidableEq

namespace AnalysisError

/-- The words that begin a message about a required module. -/
def requiredIn (moduleName requiredBy : Text) : Text :=
  inSingleQuotes moduleName ++ " required in " ++ requiredBy

def diagnostic : AnalysisError → Diagnostic
  | scriptNotFound path => .error "LST1001" (ofString "Lua script not found: " ++ path) none
  | circularDependency cycle =>
    .error "LST1002" (ofString "Circular dependency detected: " ++ joinWith " -> " cycle)
      (some "Break the cycle by moving shared code into a separate module")
  | dynamicRequire location rawText =>
    { code := "LST1003"
      severity := .error
      message := ofString "Dynamic require at " ++ location.lineText ++ ": " ++ rawText
      location := some location
      hint := some (ofString ("Only static require('name') is supported; use --manual with " ++
        "-require to list modules explicitly")) }
  | limitExceeded limit count moduleName =>
    .error "LST1004"
      (ofString "Dependency count (" ++ count.text ++ ") exceeds limit (" ++ limit.text ++
        ") while adding module " ++ inSingleQuotes moduleName)
      (some "Raise the limit with -max <n>")
  | moduleNotFound moduleName requiredBy searchedPaths =>
    .error "LST1005" (ofString "Cannot resolve module " ++ requiredIn moduleName requiredBy)
      (some (ofString "Searched: " ++ joinWith ", " searchedPaths))
  | nativeModule moduleName requiredBy nativePath =>
    .error "LST1006"
      (ofString "Module " ++ requiredIn moduleName requiredBy ++
        " is a native library and cannot be bundled: " ++ nativePath)
      none

end AnalysisError

end LuaBundle
