import LuaBundle.Text.Basic

/-! Paths as texts: names between slashes, with `.` and `..` resolved by the spelling alone. An
absolute path in normal form is the rendering of the list of its names, and the operations that
resolve, compare and relate paths work on that list. -/

namespace LuaBundle.Path

open Text

def isAbsolute (p : Text) : Bool := p.head? == some slash

/-- The parts between slashes, empty ones included. -/
def parts (p : Text) : List Text := splitOn (· == slash) p

/-- The directory reached from another by one part of a path. Nothing is above the root. -/
def enter (dir : List Text) (part : Text) : List Text :=
  if part = [] ∨ part = [dot] then dir
  else if part = [dot, dot] then dir.dropLast
  else dir ++ [part]

/-- The names of the place that a path leads to from a directory. -/
def walk (dir : List Text) (p : Text) : List Text :=
  (parts p).foldl enter (if isAbsolute p then [] else dir)

def render : List Text → Text
  | [] => [slash]
  | name :: names => (name :: names).flatMap (slash :: ·)

/-- The absolute path that paths lead to, one after the other, from the directory `base`. -/
def resolve (base : Text) (ps : List Text) : Text := render (ps.foldl walk (walk [] base))

/-- `enter` for a path without a root, which may lead above where it starts. -/
def enterRelative (dir : List Text) (part : Text) : List Text :=
  if part = [dot, dot] ∧ (dir = [] ∨ dir.getLast? = some [dot, dot]) then dir ++ [part]
  else enter dir part

/-- The shortest spelling of a path; a slash at its end is kept. -/
def normalize (p : Text) : Text :=
  let trailing : Text := if p.getLast? = some slash then [slash] else []
  if isAbsolute p then
    match (parts p).foldl enter [] with
    | [] => [slash]
    | names => render names ++ trailing
  else
    match (parts p).foldl enterRelative [] with
    | [] => dot :: trailing
    | names => joinWith [slash] names ++ trailing

def join (ps : List Text) : Text := normalize (joinWith [slash] (ps.filter (!·.isEmpty)))

def withoutTrailing (p : Text) : Text := (p.reverse.dropWhile (· == slash)).reverse

/-- The last name as it is spelled, without slashes after it. -/
def lastPart (p : Text) : Text := ((withoutTrailing p).reverse.takeWhile (· != slash)).reverse

/-- What stands before the last name, without the slash between them. -/
def parent (p : Text) : Text :=
  let body := withoutTrailing p
  let before := body.take (body.length - (lastPart p).length)
  if body = [] then if isAbsolute p then [slash] else [dot]
  else if before = [] then [dot]
  else if before = [slash] ∨ before = [slash, slash] then before
  else before.dropLast

/-- The last name without `suffix`, unless it is the suffix itself; a whole path that is the suffix
leaves nothing. A name that is only an ending of the suffix keeps the slashes after it. -/
def baseName (suffix p : Text) : Text :=
  let name := lastPart p
  if suffix = [] ∨ p.length < suffix.length then name
  else if p = suffix then []
  else if name.length < suffix.length ∧ name.isSuffixOf suffix then
    name ++ p.drop (withoutTrailing p).length
  else if name = suffix then name
  else dropSuffix suffix name

/-- The last name from its last dot on. A dot at its start begins no extension. -/
def extension (p : Text) : Text :=
  let name := lastPart p
  let afterDot := (name.reverse.takeWhile (· != dot)).reverse
  let stem := name.take (name.length - afterDot.length - 1)
  if afterDot.length = name.length ∨ stem = [] ∨ name = [dot, dot] then [] else dot :: afterDot

/-- The names that two lists do not share at their start. -/
def diverge : List Text → List Text → List Text × List Text
  | a :: as, b :: bs => if a = b then diverge as bs else (a :: as, b :: bs)
  | as, bs => (as, bs)

/-- The path that leads from the directory `origin` to `target`, both of them taken from `base`. -/
def relative (base origin target : Text) : Text :=
  let (up, down) := diverge (walk (walk [] base) origin) (walk (walk [] base) target)
  joinWith [slash] (up.map (fun _ => [dot, dot]) ++ down)

end LuaBundle.Path
