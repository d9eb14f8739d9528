import LuaBundle.Engine.Error

/-! The engines that make an executable from a program: what each is called, the platforms it runs
on, and the programs it needs. -/

namespace LuaBundle

open Text

inductive EngineKind where
  /-- Compiles the scripts one by one into a program. -/
  | luastatic
  /-- Glues a bundle onto an interpreter, the program named `stub`. -/
  | srlua (stub : Option Text)
  deriving DecidableEq, Repr

structure Engine where
  name : Text
  description : Text
  kind : EngineKind
  platforms : List Text
  executables : List Text
  installHint : Text
  deriving DecidableEq, Repr

namespace Engine

def supports (e : Engine) (platform : Text) : Bool := e.platforms.contains platform

def gluing (name description : Text) (platforms : List Text) (stub : Text) : Engine :=
  { name, description, platforms
    kind := .srlua (some stub)
    executables := ["srglue", stub]
    installHint := ofString ("Build srlua (https://github.com/LuaDist/srlua) and put srglue and " ++
      "the srlua stub on PATH") }

def luastatic : Engine :=
  { name := "luastatic"
    description := "Compile to a native executable with luastatic and a C compiler"
    kind := .luastatic
    platforms := ["linux"]
    executables := ["luastatic", "cc"]
    installHint := "Install with: luarocks install luastatic" }

/-- The engine that is used if none is named: its platforms are all that there are. -/
def standard : Engine :=
  gluing "srlua" "Glue a bundle onto the srlua stub found on PATH" ["linux", "darwin", "win32"]
    "srlua"

def all : List Engine :=
  [luastatic,
    standard,
    gluing "winsrlua515" "srlua, Lua 5.1.5, Windows 64-bit" ["win32"] "srlua515",
    gluing "winsrlua515-32" "srlua, Lua 5.1.5, Windows 32-bit" ["win32"] "srlua515-32",
    gluing "winsrlua548" "srlua, Lua 5.4.8, Windows 64-bit" ["win32"] "srlua548",
    gluing "linsrlua515" "srlua, Lua 5.1.5, Linux 64-bit" ["linux"] "srlua515",
    gluing "linsrlua515-32" "srlua, Lua 5.1.5, Linux 32-bit" ["linux"] "srlua515-32",
    gluing "linsrlua548" "srlua, Lua 5.4.8, Linux 64-bit" ["linux"] "srlua548"]

def named (name : Text) : Except PackagingError Engine :=
  match all.find? fun e => e.name = name with
  | some e => .ok e
  | none => .error (.engineNotFound name (all.map (·.name)))

end Engine

end LuaBundle
