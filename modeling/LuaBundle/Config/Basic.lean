import LuaBundle.Json.Reader
import LuaBundle.Workspace.Read

/-! The settings that a project keeps in a file beside its sources. Every field may be left out;
one that is there must have its type, and fields of other names mean nothing. -/

namespace LuaBundle

open Text

structure Config where
  maxNodes : Option Number
  /-- Directories to look for modules in, from the one of the file. -/
  searchRoots : Option (List Text)
  engine : Option Text
  output : Option Text
  engineArguments : Option (List Text)
  deriving DecidableEq

inductive ConfigField where
  | maxNodes
  | searchRoots
  | engine
  | output
  | engineArguments
  deriving DecidableEq, Repr

namespace ConfigField

def name : ConfigField → Text
  | maxNodes => "maxNodes"
  | searchRoots => "searchRoots"
  | engine => "engine"
  | output => "output"
  | engineArguments => "engineArgs"

def requirement : ConfigField → Text
  | maxNodes => "a positive integer"
  | searchRoots | engineArguments => "an array of strings"
  | engine | output => "a string"

end ConfigField

inductive ConfigError where
  | notFound (path : Text)
  | unreadable (error : FileError)
  | notJson
  | notObject
  | invalid (field : ConfigField)
  deriving DecidableEq, Repr

namespace Config

def fileName : Text := "luastitch.json"

def empty : Config := ⟨none, none, none, none, none⟩

end Config

def ConfigError.message : ConfigError → Text
  | notFound path => ofString "Config file not found: " ++ path
  | unreadable error => ofString "Failed to parse " ++ Config.fileName ++ ": " ++ error.message
  | notJson => ofString "Failed to parse " ++ Config.fileName ++ ": <json>"
  | notObject => Config.fileName ++ ": expected a JSON object"
  | invalid field =>
    Config.fileName ++ ": " ++ inSingleQuotes field.name ++ " must be " ++ field.requirement

namespace Config

/-- A positive integer. -/
def count? : Json → Option Number
  | .number n => if n.isPositiveInteger then some n else none
  | _ => none

/-- The value of a field, if it is there and `read` accepts it. -/
def readField {α : Type} (document : Json) (field : ConfigField) (read : Json → Option α) :
    Except ConfigError (Option α) :=
  match document.field? field.name with
  | none => .ok none
  | some value =>
    match read value with
    | some result => .ok (some result)
    | none => .error (.invalid field)

/-- The settings that a document holds. The first field that is wrong is the error. -/
def ofJson (document : Json) : Except ConfigError Config :=
  match document with
  | .object _ => do
    let maxNodes ← readField document .maxNodes count?
    let searchRoots ← readField document .searchRoots Json.strings?
    let engine ← readField document .engine Json.string?
    let output ← readField document .output Json.string?
    let engineArguments ← readField document .engineArguments Json.strings?
    return ⟨maxNodes, searchRoots, engine, output, engineArguments⟩
  | _ => .error .notObject

def load (w : Workspace) (path : Text) : Except ConfigError Config :=
  if !w.pathExists path then .error (.notFound path)
  else
    match w.readText path with
    | .error error => .error (.unreadable error)
    | .ok text =>
      match Json.read text with
      | .error _ => .error .notJson
      | .ok document => ofJson document

/-- The nearest file of settings at or above a directory, whose names are given last first. -/
def findAbove (w : Workspace) (names : List Text) : Option Text :=
  let path := Path.join [Path.render names.reverse, fileName]
  if w.pathExists path then some path
  else
    match names with
    | [] => none
    | _ :: above => findAbove w above

def find (w : Workspace) (dir : Text) : Option Text :=
  findAbove w (Path.walk [] (w.absolute dir)).reverse

end Config

end LuaBundle
