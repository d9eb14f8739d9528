import LuaBundle.Text.Basic

/-! The version of the command line and its help. -/

namespace LuaBundle.CommandLine

open Text

def version : Text := "0.1.0"

def versionLine : Text := ofString "luastitch v" ++ version

def helpLines : List String :=
  ["",
    "USAGE:",
    "  luastitch <command> [options]",
    "  luastitch <entry.lua> [build options]",
    "",
    "COMMANDS:",
    "  help                      Show this help message",
    "  version                   Show version",
    "  engines                   List packaging engines and whether they can run here",
    "  analyze <entry.lua>       List the scripts the entry requires",
    "  build <entry.lua>         Build a standalone executable",
    "",
    "GLOBAL OPTIONS:",
    "  -h, --help                Show help",
    "  -v, --version             Show version",
    "  -config <file>            Config file path (default: luastitch.json)",
    "",
    "ANALYZE/BUILD OPTIONS:",
    "  -max <n>                  Maximum number of scripts, entry included (default: 36)",
    "  -path <dir>               Extra module search root (repeatable)",
    "  --detail                  Show every step",
    "",
    "ANALYZE OPTIONS:",
    "  -bundle <out.lua>         Also write a single-file Lua bundle",
    "",
    "BUILD OPTIONS:",
    "  -engine <name>            Packaging engine (default: srlua)",
    "  -output <path>            Output executable (default: entry name)",
    "  -require <a.lua,b.lua>    Additional scripts to embed (comma-separated)",
    "  -engine-arg <arg>         Extra luastatic argument (repeatable)",
    "  --manual                  Skip dependency analysis; embed only -require scripts",
    "",
    "EXAMPLES:",
    "  luastitch analyze main.lua -max 100 --detail",
    "  luastitch analyze main.lua -bundle dist/main.bundle.lua",
    "  luastitch build main.lua -engine srlua -output ./bin/app",
    "  luastitch build app.lua -require utils.lua,config.lua --manual",
    "  luastitch build app.lua -engine luastatic -engine-arg -lm",
    "  luastitch hello.lua",
    ""]

/-- The help, with an empty line before and after it. -/
def help : Text :=
  joinWith [lineFeed]
    ([[], ofString "luastitch - package Lua programs into one bundle or executable v" ++ version] ++
      helpLines.map ofString)

end LuaBundle.CommandLine
