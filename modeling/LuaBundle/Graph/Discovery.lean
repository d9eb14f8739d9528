import LuaBundle.Event
import LuaBundle.Graph.Basic
import LuaBundle.Module.Resolve

/-! Finding the modules of a program, breadth first from its entry. Scripts are visited in the
order in which they are met; a visit scans the text and follows its sites one by one. The first
failure ends the search. -/

namespace LuaBundle

structure Search where
  workspace : Workspace
  /-- The directories that names are looked for in, the one of the entry first. -/
  roots : List Text
  /-- The greatest number of scripts, the entry included. -/
  limit : Number

structure Discovery where
  visited : List SourceFile
  /-- The scripts that were met, in that order, among them the visited ones. -/
  met : List Text
  /-- The scripts to visit next, with their distance from the entry. -/
  pending : List (Text × Nat)
  edges : Edges Text
  names : OrderedMap Text (List Text)
  events : List Event

namespace Discovery

def report (d : Discovery) (e : Event) : Discovery := { d with events := d.events ++ [e] }

def start (entry : Text) : Discovery := ⟨[], [entry], [(entry, 0)], [], [], []⟩

def require (d : Discovery) (current name target : Text) : Discovery :=
  { d with edges := d.edges.addTo current target, names := d.names.addTo target name }.report
    (.resolve name current target)

/-- Adds a script that was not met before. -/
def meet (d : Discovery) (target : Text) (depth : Nat) : Discovery :=
  { d with met := d.met ++ [target], pending := d.pending ++ [(target, depth)] }

def graph (d : Discovery) (entry : Text) : ModuleGraph := ⟨entry, d.visited, d.edges, d.names⟩

end Discovery

namespace Search

open Discovery

def follow (s : Search) (current : Text) (depth : Nat) (d : Discovery) (site : RequireSite) :
    Except (Failure AnalysisError) Discovery :=
  match site.moduleName with
  | none =>
    .error (.reported (.dynamicRequire (.ofPosition current site.position) site.rawArgument))
  | some name =>
    match ResolvedModule.find s.workspace s.roots current name with
    | .error failure => .error failure
    | .ok (.builtin name) => .ok (d.report (.skipBuiltin name current))
    | .ok (.script name target) =>
      match d.edges.cycle? current target with
      | some cycle => .error (.reported (.circularDependency cycle))
      | none =>
        if target ∈ d.met then .ok (d.require current name target)
        else if s.limit.isBelow (d.met.length + 1) then
          .error (.reported (.limitExceeded s.limit (.ofNat (d.met.length + 1)) name))
        else .ok ((d.meet target (depth + 1)).require current name target)

/-- Follows the sites of a script up to the first that fails. -/
def followAll (s : Search) (current : Text) (depth : Nat) (d : Discovery) :
    List RequireSite → Except (Failure AnalysisError) Unit × Discovery
  | [] => (.ok (), d)
  | site :: sites =>
    match s.follow current depth d site with
    | .error failure => (.error failure, d)
    | .ok next => s.followAll current depth next sites

def visit (s : Search) (current : Text) (depth : Nat) (d : Discovery) :
    Except (Failure AnalysisError) Unit × Discovery :=
  let d := d.report (.visit current (.ofNat depth))
  match s.workspace.readText current with
  | .error _ => (.error (.reported (.scriptNotFound current)), d)
  | .ok text =>
    let requires := RequireSite.scan text
    let visited := d.visited ++ [⟨current, text, requires⟩]
    s.followAll current depth { d with visited } requires

/-- Visits scripts until none is pending. No more are met than the limit allows, so that it bounds
the number of visits as well. -/
def run (s : Search) : Nat → Discovery → Except (Failure AnalysisError) Unit × Discovery
  | visits, d =>
    match d.pending with
    | [] => (.ok (), d)
    | (current, depth) :: pending =>
      match visits with
      | 0 => (.error .exhausted, d)
      | visits + 1 =>
        match s.visit current depth { d with pending := pending } with
        | (.error failure, d) => (.error failure, d)
        | (.ok (), d) => s.run visits d

end Search

namespace ModuleGraph

/-- The number of scripts that a program may have if nothing else is said. -/
def defaultLimit : Number := .ofNat 36

/-- Whether a file is a script that can be read, and its canonical path. -/
def scriptPath (w : Workspace) (path : Text) : Except (Failure AnalysisError) Text :=
  if w.isReadable (w.absolute path) then
    (w.canonical (w.absolute path)).mapError .interrupted
  else .error (.reported (.scriptNotFound path))

/-- The graph of the program with the given entry, and the events on the way. -/
def ofProgram (w : Workspace) (entryPath : Text) (limit : Number) (searchRoots : List Text) :
    Except (Failure AnalysisError) ModuleGraph × List Event :=
  match scriptPath w entryPath with
  | .error failure => (.error failure, [])
  | .ok entry =>
    if limit.isBelow 1 then
      (.error (.reported (.limitExceeded limit (.ofNat 1) (ModuleKey.ofEntry entry))), [])
    else
      let search : Search := ⟨w, Path.parent entry :: searchRoots.map w.absolute, limit⟩
      match search.run limit.cap (.start entry) with
      | (.error failure, d) => (.error failure, d.events)
      | (.ok (), d) => (.ok (d.graph entry), d.events)

def dependenciesOf (w : Workspace) (entryPath : Text) (limit : Number) (searchRoots : List Text) :
    Except (Failure AnalysisError) (List Text) × List Event :=
  let (result, events) := ofProgram w entryPath limit searchRoots
  (result.map dependencies, events)

end ModuleGraph

end LuaBundle
