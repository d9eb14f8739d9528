import LuaBundle.Build.Basic
import LuaBundle.CommandLine.Output
import LuaBundle.CommandLine.Settings

/-! The commands of the command line. Each prints what it found or made; an error is left to the
caller to print. -/

namespace LuaBundle

open Text

namespace CommandLine

/-- A line between sections. -/
def rule : Text := List.replicate 60 equals

/-! ## Listing the engines -/

def statusLabel : Toolchain.Status → Text
  | .available => "available"
  | .missing => "not found"
  | .unsupported => "unsupported"

/-- The line for an engine, with a star for the one that is used if none is named. -/
def engineLine (t : Toolchain) (w : Workspace) (e : Engine) : Text :=
  (if e.name = Engine.standard.name then unit '*' else space) :: space :: padRight 16 e.name ++
    space :: padRight 12 (statusLabel (t.status w e)) ++ space :: e.description

def engineLines (t : Toolchain) (w : Workspace) : List Text :=
  [ofString "Supported engines:", rule] ++ Engine.all.map (engineLine t w) ++
    [rule, ofString "* default engine (" ++ t.platform ++ [rightParen]]

/-! ## Listing what a script requires -/

/-- A path from the working directory. -/
def shown (w : Workspace) (path : Text) : Text := Path.relative w.base w.base path

def analysisHeading (s : Settings) : List Text :=
  [ofString "Analyzing: " ++ s.entryPath, ofString "Max dependencies: " ++ s.maxNodes.text] ++
    (if s.searchRoots = [] then []
      else [ofString "Search roots: " ++ joinWith ", " s.searchRoots]) ++
    [rule]

def dependencyLines (w : Workspace) (g : ModuleGraph) (detail : Bool) (n : Nat) (file : Text) :
    List OutputLine :=
  .out (ofString "  " ++ decimal n ++ ". " ++ Path.relative w.base (Path.parent g.entry) file) ::
    detailLines detail
      [ofString "     Module: " ++ joinWith ", " ((g.names.get? file).getD []),
        ofString "     Path: " ++ file]

def graphLines (w : Workspace) (s : Settings) (g : ModuleGraph) : List OutputLine :=
  detailLines s.detail [[]] ++
    [.out (ofString "Dependencies for " ++ Path.baseName [] s.entryPath ++ [colon])] ++
    (if g.dependencies = [] then [.out (ofString "  (no dependencies)")] else []) ++
    (g.dependencies.zipIdx 1).flatMap (fun (file, n) => dependencyLines w g s.detail n file) ++
    [.out (ofString "\nTotal: " ++ decimal g.dependencies.length ++ " script(s)")] ++
    detailLines s.detail [ofString "Edges: " ++ decimal g.edgeCount]

def graphTask (s : Settings) : Task AnalysisError ModuleGraph := do
  let (result, events) := ModuleGraph.ofProgram (← Task.workspace) s.entryPath s.maxNodes
    s.searchRoots
  Task.reportAll events
  Task.ofResult result

/-- A failure with its error in words. -/
def inWords {ε : Type} (diagnostic : ε → Diagnostic) (f : Failure ε) : Failure Text :=
  f.map fun error => (diagnostic error).text

def bundleStep (s : Settings) (g : ModuleGraph) (session : Session) :
    Outcome (Except (Failure Text) Unit) :=
  match s.bundlePath with
  | none => ⟨.ok (), [], session⟩
  | some path =>
    let written := (Bundle.write Bundle.version g.manifest path).show s.detail session
    match written.result with
    | .error failure => written.map fun _ => .error (inWords BundleError.diagnostic failure)
    | .ok target =>
      (written.map fun _ => .ok ()).append
        [.out (ofString "\n✓ Bundle written: " ++ shown session.workspace target)]

/-- Lists the scripts that a script requires. -/
def analyze (s : Settings) (w : Workspace) : Outcome (Except (Failure Text) Unit) :=
  let found := (graphTask s).show s.detail (.start w)
  Outcome.prepend (detailLines s.detail (analysisHeading s)) <|
    match found.result with
    | .error failure => found.map fun _ => .error (inWords AnalysisError.diagnostic failure)
    | .ok g => (bundleStep s g found.session).prepend (found.log ++ graphLines w s g)

/-! ## Building an executable -/

def buildHeading (s : Settings) : List Text :=
  [ofString "Building: " ++ s.entryPath, ofString "Engine: " ++ s.engineName,
    ofString "Manual mode: " ++ (if s.manualMode then "enabled" else "disabled"),
    ofString "Max dependencies: " ++ s.maxNodes.text, ofString "Output: " ++ s.outputPath] ++
    (if s.explicitRequires = [] then []
      else [ofString "Additional requires: " ++ joinWith ", " s.explicitRequires]) ++
    [rule]

def buildRequest (s : Settings) : BuildRequest :=
  { entryPath := s.entryPath
    explicitRequires := s.explicitRequires
    maxNodes := some s.maxNodes
    outputPath := s.outputPath
    manualMode := s.manualMode
    engineName := some s.engineName
    searchRoots := s.searchRoots
    engineArguments := s.engineArguments }

def build (s : Settings) (t : Toolchain) (w : Workspace) : Outcome (Except (Failure Text) Unit) :=
  let built := ((buildRequest s).run t).show s.detail (.start w)
  Outcome.prepend (detailLines s.detail (buildHeading s)) <|
    match built.result with
    | .error failure => built.map fun _ => .error (inWords BuildError.diagnostic failure)
    | .ok result =>
      (built.map fun _ => .ok ()).append <|
        detailLines s.detail
          [ofString "Embedded " ++ decimal result.files.length ++ " file(s) with " ++
            result.engine] ++
        [.out (ofString "✓ Build complete: " ++ shown w result.outputPath)]

end CommandLine

end LuaBundle
