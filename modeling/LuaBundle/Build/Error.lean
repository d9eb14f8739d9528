import LuaBundle.Analysis.Error
import LuaBundle.Bundle.Error
import LuaBundle.Engine.Error

/-! Why a program could not be built: an error of one of the stages. -/

namespace LuaBundle

inductive BuildError where
  | analysis (error : AnalysisError)
  | bundle (error : BundleError)
  | packaging (error : PackagingError)
  deriving DecidableEq

def BuildError.diagnostic : BuildError → Diagnostic
  | analysis error => error.diagnostic
  | bundle error => error.diagnostic
  | packaging error => error.diagnostic

end LuaBundle
