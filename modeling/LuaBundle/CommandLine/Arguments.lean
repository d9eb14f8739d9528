import LuaBundle.Number.Binary
import LuaBundle.Number.Shortest

/-! The arguments of a command line: a command, the script it is about, and options between them.
A script in the place of the command stands for building it. -/

namespace LuaBundle

open Text

structure Options where
  config : Option Text
  max : Option Number
  /-- Directories to look for modules in, in the order given. -/
  paths : List Text
  detail : Bool
  bundle : Option Text
  engine : Option Text
  output : Option Text
  /-- Scripts to embed, in the order given; present once the option was used. -/
  requires : Option (List Text)
  manual : Bool
  engineArguments : List Text
  deriving DecidableEq

def Options.none : Options := ⟨.none, .none, [], false, .none, .none, .none, .none, false, []⟩

inductive ArgumentError where
  | missingValue (option : Text)
  | badLimit
  | unknownOption (option : Text)
  | unexpected (argument : Text)
  deriving DecidableEq, Repr

def ArgumentError.message : ArgumentError → Text
  | missingValue option => ofString "Option " ++ inSingleQuotes option ++ " requires a value"
  | badLimit => "-max must be a positive integer"
  | unknownOption option => ofString "Unknown option: " ++ option
  | unexpected argument => ofString "Unexpected argument: " ++ argument

/-- What was understood, up to the end or to the first error. -/
structure Arguments where
  command : Text
  entryFile : Option Text
  options : Options
  error : Option ArgumentError
  deriving DecidableEq

inductive ValueOption where
  | max
  | path
  | require
  | engineArgument
  | bundle
  | engine
  | output
  | config
  deriving DecidableEq, Repr

/-- The meaning of an argument with a dash. -/
inductive Flag where
  | help
  | version
  | detail
  | manual
  | value (option : ValueOption)
  deriving DecidableEq, Repr

namespace Flag

def spellings : List (Text × Flag) :=
  [("-h", help), ("--help", help), ("-v", version), ("--version", version), ("--detail", detail),
    ("--manual", manual), ("-max", value .max), ("-path", value .path),
    ("-require", value .require), ("-engine-arg", value .engineArgument),
    ("-bundle", value .bundle), ("-engine", value .engine), ("-output", value .output),
    ("-config", value .config)].map fun (s, f) => (ofString s, f)

def ofText? (t : Text) : Option Flag := (spellings.find? fun s => s.1 = t).map (·.2)

end Flag

namespace Arguments

def isOption (argument : Text) : Bool := argument.head? = some dash

def isScript (argument : Text) : Bool := Text.isSuffix ".lua" argument

/-- The items of a list between commas, without blanks around them; empty ones do not count. -/
def splitList (t : Text) : List Text :=
  ((splitOn (· == comma) t).map trim).filter (!·.isEmpty)

/-- A number above zero, in decimal digits. -/
def positive? (t : Text) : Option Number :=
  if t ≠ [] ∧ t.all isDigit ∧ digitsValue 10 t ≠ 0 then
    some (Number.ofDecimal false (digitsValue 10 t) 0)
  else none

/-- Whether a value may look like an option. -/
def allowsDash (option : ValueOption) : Bool := option = .engineArgument

def store (o : Options) (value : Text) : ValueOption → Except ArgumentError Options
  | .max =>
    match positive? value with
    | some n => .ok { o with max := some n }
    | none => .error .badLimit
  | .path => .ok { o with paths := o.paths ++ [value] }
  | .require => .ok { o with requires := some (o.requires.getD [] ++ splitList value) }
  | .engineArgument => .ok { o with engineArguments := o.engineArguments ++ [value] }
  | .bundle => .ok { o with bundle := some value }
  | .engine => .ok { o with engine := some value }
  | .output => .ok { o with output := some value }
  | .config => .ok { o with config := some value }

def fail (a : Arguments) (error : ArgumentError) : Arguments := { a with error := some error }

def only (command : Text) : Arguments := ⟨command, none, Options.none, none⟩

def lacksEntry (a : Arguments) : Bool := (a.entryFile.getD []).isEmpty

/-- What an argument without a dash adds: the command, the script, or both. -/
def takePositional (a : Arguments) (argument : Text) : Except ArgumentError Arguments :=
  if a.command = [] then
    if isScript argument then .ok { a with command := "build", entryFile := some argument }
    else .ok { a with command := argument }
  else if a.lacksEntry then .ok { a with entryFile := some argument }
  else .error (.unexpected argument)

def parseAfter (a : Arguments) : List Text → Arguments
  | [] => a
  | argument :: rest =>
    if isOption argument then
      match Flag.ofText? argument with
      | none => a.fail (.unknownOption argument)
      | some .help => only "help"
      | some .version => only "version"
      | some .detail => parseAfter { a with options := { a.options with detail := true } } rest
      | some .manual => parseAfter { a with options := { a.options with manual := true } } rest
      | some (.value option) =>
        match rest with
        | [] => a.fail (.missingValue argument)
        | value :: rest =>
          if isOption value ∧ !allowsDash option then a.fail (.missingValue argument)
          else
            match store a.options value option with
            | .error error => a.fail error
            | .ok options => parseAfter { a with options := options } rest
    else
      match a.takePositional argument with
      | .error error => a.fail error
      | .ok next => parseAfter next rest

def parse (arguments : List Text) : Arguments := parseAfter (only []) arguments

end Arguments

end LuaBundle
