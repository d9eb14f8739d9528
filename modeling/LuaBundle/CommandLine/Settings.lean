import LuaBundle.CommandLine.Arguments
import LuaBundle.Config.Basic
import LuaBundle.Engine.Toolchain
import LuaBundle.Graph.Discovery

/-! What a command goes by: the options of the command line before those of the project's file,
those before the defaults. Paths are taken from where they were written: those of the file from its
directory, those of the command line from the working directory. -/

namespace LuaBundle

open Text

structure Settings where
  entryPath : Text
  /-- The directory of the project's file, if there is one. -/
  projectRoot : Option Text
  maxNodes : Number
  searchRoots : List Text
  engineName : Text
  outputPath : Text
  bundlePath : Option Text
  explicitRequires : List Text
  manualMode : Bool
  engineArguments : List Text
  detail : Bool
  deriving DecidableEq

namespace Settings

/-- The name of the executable of a script: its own name without extension, on a platform where
that says what is executable with the extension for it. -/
def defaultOutputName (entryPath platform : Text) : Text :=
  let stem := Path.baseName (Path.extension entryPath) entryPath
  if platform = windows then stem ++ ".exe" else stem

/-- An option that says something. -/
def given (value : Option Text) : Option Text := value.filter (!·.isEmpty)

def projectDirectory (cwd : Text) (projectRoot : Option Text) : Text := projectRoot.getD cwd

/-- The settings of a command about a script. A working directory that is not absolute is taken
from `base`. -/
def resolve (base cwd platform : Text) (projectRoot : Option Text) (entryFile : Text) (c : Config)
    (o : Options) : Settings :=
  let ofProject (path : Text) := Path.resolve base [projectDirectory cwd projectRoot, path]
  let ofCommand (path : Text) := Path.resolve base [cwd, path]
  { entryPath := entryFile
    projectRoot := projectRoot
    maxNodes := (o.max <|> c.maxNodes).getD ModuleGraph.defaultLimit
    searchRoots := (c.searchRoots.getD []).map ofProject ++ o.paths.map ofCommand
    engineName := (o.engine <|> c.engine).getD Engine.standard.name
    outputPath :=
      match given o.output, given c.output with
      | some path, _ => ofCommand path
      | none, some path => ofProject path
      | none, none => Path.join [cwd, defaultOutputName entryFile platform]
    bundlePath := (given o.bundle).map ofCommand
    explicitRequires := o.requires.getD []
    manualMode := o.manual
    engineArguments := c.engineArguments.getD [] ++ o.engineArguments
    detail := o.detail }

/-- The platform that names of executables are made for. -/
def homePlatform : Text := "linux"

def configPath (w : Workspace) (o : Options) : Option Text :=
  match given o.config with
  | some path => some (w.absolute path)
  | none => Config.find w w.base

def load (w : Workspace) (entryFile : Text) (o : Options) : Except ConfigError Settings :=
  match configPath w o with
  | none => .ok (resolve w.base w.base homePlatform none entryFile .empty o)
  | some path =>
    (Config.load w path).map fun c =>
      resolve w.base w.base homePlatform (some (Path.parent path)) entryFile c o

end Settings

end LuaBundle
