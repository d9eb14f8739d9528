import LuaBundle.Diagnostic

/-! Why an executable could not be made from the files of a program. -/

namespace LuaBundle

open Text

inductive PackagingError where
  | engineNotFound (name : Text) (known : List Text)
  | toolchainNotFound (engine : Text) (missing : List Text) (installHint : Text)
  /-- The command ended with a failure; one that a signal ended has no exit code. -/
  | processFailed (engine : Text) (command : List Text) (exitCode : Option Number) (stderr : Text)
  | artifactMissing (engine path : Text)
  | unsupportedPlatform (engine platform : Text) (supported : List Text)
  deriving DecidableEq, Repr

namespace PackagingError

def inEngine (engine : Text) : Text := ofString "Engine " ++ inSingleQuotes engine

def diagnostic : PackagingError → Diagnostic
  | engineNotFound name known =>
    .error "LST3001" (ofString "Unknown engine: " ++ name)
      (some (ofString "Available engines: " ++ joinWith ", " known))
  | toolchainNotFound engine missing installHint =>
    .error "LST3002" (inEngine engine ++ " needs " ++ joinWith ", " missing ++ " on PATH")
      (some installHint)
  | processFailed _ command exitCode stderr =>
    let withCode : Text :=
      match exitCode with
      | none => []
      | some code => ofString " with exit code " ++ code.text
    let withOutput : Text := if trim stderr = [] then [] else ofString ": " ++ trim stderr
    .error "LST3003" (joinWith [space] command ++ " failed" ++ withCode ++ withOutput) none
  | artifactMissing engine path =>
    .error "LST3004" (inEngine engine ++ " finished but produced no output at " ++ path) none
  | unsupportedPlatform engine platform supported =>
    .error "LST3005" (inEngine engine ++ " does not run on " ++ platform)
      (some (ofString "Supported platforms: " ++ joinWith ", " supported))

end PackagingError

end LuaBundle
