import LuaBundle.Bundle.Error
import LuaBundle.Manifest

/-! The files of a manifest with their keys gathered: a file has one loader, under the first of its
keys, and answers to its other keys as aliases. -/

namespace LuaBundle

structure EmbeddedModule where
  path : Text
  key : Text
  /-- The other keys of the file, in the order of the manifest. -/
  aliases : List Text
  deriving DecidableEq, Repr

namespace EmbeddedModule

def keys (m : EmbeddedModule) : List Text := m.key :: m.aliases

def addKey (e : ManifestEntry) : List EmbeddedModule → List EmbeddedModule
  | [] => [⟨e.path, e.key, []⟩]
  | m :: rest =>
    if m.path = e.path then { m with aliases := m.aliases ++ [e.key] } :: rest
    else m :: addKey e rest

/-- Takes an entry into the modules gathered so far. A key that is known already must belong to
the same file. -/
def add (modules : List EmbeddedModule) (e : ManifestEntry) :
    Except BundleError (List EmbeddedModule) :=
  match modules.find? fun m => m.keys.contains e.key with
  | none => .ok (addKey e modules)
  | some owner =>
    if owner.path = e.path then .ok modules
    else .error (.duplicateKey e.key owner.path e.path)

/-- The modules of a manifest, in the order in which their files occur first. -/
def ofManifest (manifest : Manifest) : Except BundleError (List EmbeddedModule) :=
  manifest.foldlM add []

end EmbeddedModule

end LuaBundle
