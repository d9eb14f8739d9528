import LuaBundle.Bundle.Names

/-! The code that loads the modules of a bundle. A module runs once, when it is first required;
its value, or `true` if it has none, is kept. A name without a loader goes to the host. -/

namespace LuaBundle.Bundle

open Text

def emptyTable (name : Text) : Text := ofString "local " ++ name ++ " = \x7b\x7d"

def element (table key : Text) : Text := table ++ leftBracket :: key ++ [rightBracket]

def preludeLines : List Text :=
  [emptyTable moduleTable,
    emptyTable aliasTable,
    emptyTable cacheTable,
    emptyTable loadingMarker,
    ofString "local " ++ hostRequire ++ " = require",
    [],
    ofString "local function " ++ requireFunction ++ "(name)",
    ofString "  local key = " ++ element aliasTable "name" ++ " or name",
    ofString "  local cached = " ++ element cacheTable "key",
    "  if cached ~= nil then",
    ofString "    if cached == " ++ loadingMarker ++ " then",
    "      error(\"circular require of module '\" .. tostring(key) .. \"'\", 2)",
    "    end",
    "    return cached",
    "  end",
    ofString "  local loader = " ++ element moduleTable "key",
    "  if loader == nil then",
    ofString "    return " ++ hostRequire ++ "(name)",
    "  end",
    ofString "  " ++ element cacheTable "key" ++ " = " ++ loadingMarker,
    "  local value = loader(key)",
    "  if value == nil then",
    "    value = true",
    "  end",
    ofString "  " ++ element cacheTable "key" ++ " = value",
    "  return value",
    "end",
    []]

def prelude : Text := joinWith [lineFeed] preludeLines

end LuaBundle.Bundle
