import LuaBundle.Engine.Luastatic
import LuaBundle.Engine.Srlua

/-! Making an executable with an engine, once the host is known to have what the engine needs. -/

namespace LuaBundle.Engine

def unsupported (e : Engine) (t : Toolchain) : PackagingError :=
  .unsupportedPlatform e.name t.platform e.platforms

def invoke (e : Engine) (t : Toolchain) (job : Job) : Task BuildError Text := do
  if !e.supports t.platform then refuse (e.unsupported t)
  else
    match t.missing (← Task.workspace) e with
    | [] =>
      match e.kind with
      | .luastatic => e.invokeLuastatic t job
      | .srlua stub => e.invokeSrlua t stub job
    | missing => refuse (.toolchainNotFound e.name missing e.installHint)

end LuaBundle.Engine
