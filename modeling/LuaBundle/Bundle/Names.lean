import LuaBundle.Text.Basic

/-! The names that a bundle takes for its own variables, and the version it is marked with. -/

namespace LuaBundle.Bundle

def version : Text := "0.1.0"

def moduleTable : Text := "__luastitch_modules"

/-- The table of keys, by the other names of their modules. -/
def aliasTable : Text := "__luastitch_aliases"

def cacheTable : Text := "__luastitch_cache"

/-- The value that stands for a module while it is loaded. -/
def loadingMarker : Text := "__luastitch_loading"

/-- The function that loads modules which are not embedded. -/
def hostRequire : Text := "__luastitch_host_require"

def requireFunction : Text := "__luastitch_require"

end LuaBundle.Bundle
