import LuaBundle.Engine.Invoke
import LuaBundle.Graph.Discovery

/-! Building a program: its files are found, those that were named explicitly are added, and an
engine makes an executable from them. -/

namespace LuaBundle

structure BuildRequest where
  entryPath : Text
  /-- Scripts to embed besides those that are found. -/
  explicitRequires : List Text
  maxNodes : Option Number
  outputPath : Text
  /-- Whether only the explicit scripts are embedded. -/
  manualMode : Bool
  engineName : Option Text
  searchRoots : List Text
  engineArguments : List Text
  deriving DecidableEq

structure BuildResult where
  outputPath : Text
  engine : Text
  /-- The embedded files, the entry last. -/
  files : List Text
  deriving DecidableEq, Repr

namespace Manifest

def newFiles (m : Manifest) (explicit : List Text) : List Text :=
  (distinct explicit).filter fun file => !(m.map (·.path)).contains file

/-- A manifest with further files just before its entry. -/
def merge (m : Manifest) (base entryPath : Text) (files : List Text) : Manifest :=
  m.filter (fun e => e.path != entryPath) ++
    files.map (fun file => ⟨keyBeside base entryPath file, file⟩) ++
    m.filter (fun e => e.path == entryPath)

end Manifest

namespace BuildRequest

def script (w : Workspace) (path : Text) : Except (Failure BuildError) Text :=
  (ModuleGraph.scriptPath w path).mapError (Failure.map .analysis)

/-- The manifest of what the program itself requires. -/
def foundManifest (r : BuildRequest) (entry : Text) : Task BuildError Manifest := do
  if r.manualMode then return [⟨ModuleKey.ofEntry entry, entry⟩]
  else
    let (result, events) := ModuleGraph.ofProgram (← Task.workspace) entry
      (r.maxNodes.getD ModuleGraph.defaultLimit) r.searchRoots
    Task.reportAll events
    let graph ← Task.ofResult (result.mapError (Failure.map .analysis))
    return graph.manifest

def manifest (r : BuildRequest) : Task BuildError Manifest := do
  let w ← Task.workspace
  let entry ← Task.ofResult (script w r.entryPath)
  let explicit ← Task.ofResult (r.explicitRequires.mapM (script w))
  let found ← r.foundManifest entry
  let added := found.newFiles explicit
  Task.reportAll (added.map .mergeExplicit)
  return found.merge w.base entry added

/-- The engine to use, which must run here. -/
def engine (r : BuildRequest) (t : Toolchain) : Task BuildError Engine := do
  let e ←
    match r.engineName with
    | none => pure Engine.standard
    | some name => Task.ofExcept ((Engine.named name).mapError .packaging)
  if !e.supports t.platform then Engine.refuse (e.unsupported t)
  else if t.probe (← Task.workspace) e then return e
  else Engine.refuse (.toolchainNotFound e.name e.executables e.installHint)

def run (r : BuildRequest) (t : Toolchain) : Task BuildError BuildResult := do
  let manifest ← r.manifest
  let e ← r.engine t
  let output ← e.invoke t ⟨manifest, r.outputPath, r.engineArguments⟩
  return ⟨output, e.name, manifest.files⟩

end BuildRequest

end LuaBundle
