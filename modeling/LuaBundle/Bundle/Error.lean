import LuaBundle.Diagnostic
import LuaBundle.Workspace.Fault

/-! Why a manifest could not be made into a bundle, or the bundle not be stored. -/

namespace LuaBundle

open Text

inductive BundleError where
  | emptyManifest
  /-- Two files lay claim to one key. -/
  | duplicateKey (key first second : Text)
  | sourceUnreadable (path reason : Text)
  | outputUnwritable (path reason : Text)
  deriving DecidableEq, Repr

namespace BundleError

def diagnostic : BundleError → Diagnostic
  | emptyManifest => .error "LST2001" "Nothing to bundle: the module list is empty" none
  | duplicateKey key first second =>
    .error "LST2002"
      (ofString "Module key " ++ inSingleQuotes key ++ " maps to two files: " ++ first ++ " and " ++
        second)
      none
  | sourceUnreadable path reason =>
    .error "LST2003" (ofString "Cannot read " ++ path ++ ": " ++ reason) none
  | outputUnwritable path reason =>
    .error "LST2004" (ofString "Cannot write bundle " ++ path ++ ": " ++ reason) none

end BundleError

end LuaBundle
