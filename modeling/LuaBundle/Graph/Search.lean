import LuaBundle.OrderedMap

/-! Paths in a directed graph that is given by the successors of its nodes. The search goes depth
first, in the order of the edges, and enters no node twice. -/

namespace LuaBundle

abbrev Edges (α : Type) := OrderedMap α (List α)

namespace Edges

variable {α : Type} [DecidableEq α]

def successors (edges : Edges α) (node : α) : List α := (edges.get? node).getD []

/-- The number of steps that a search may take when the nodes `fresh` can still be entered. -/
def effort (edges : Edges α) : List α → Nat
  | [] => 0
  | node :: fresh => (edges.successors node).length + 1 + effort edges fresh

theorem effort_erase (edges : Edges α) {node : α} {fresh : List α} (h : node ∈ fresh) :
    edges.effort (fresh.erase node) + ((edges.successors node).length + 1) =
      edges.effort fresh := by
  induction fresh with
  | nil => simp at h
  | cons first rest ih =>
    by_cases he : first = node
    · subst he
      rw [List.erase_cons_head, effort]
      omega
    · have := ih ((List.mem_cons.1 h).resolve_left (Ne.symm he))
      rw [List.erase_cons_tail (by simpa using he), effort, effort]
      omega

/-- The first path to `target` among those that begin with one of the pending nodes, each of which
stands with the way to it. `fresh` are the nodes that have successors and were not yet entered. -/
def searchFrom (edges : Edges α) (target : α) (fresh : List α) :
    List (α × List α) → Option (List α)
  | [] => none
  | (node, trail) :: pending =>
    if node = target then some (trail ++ [node])
    else if node ∈ fresh then
      searchFrom edges target (fresh.erase node)
        ((edges.successors node).map (fun next => (next, trail ++ [node])) ++ pending)
    else searchFrom edges target fresh pending
termination_by pending => edges.effort fresh + pending.length
decreasing_by
  · rename_i h
    have := edges.effort_erase h
    simp only [List.length_append, List.length_map, List.length_cons]
    omega
  · simp

/-- A path along edges from one node to another, both included. -/
def path? (edges : Edges α) (origin target : α) : Option (List α) :=
  edges.searchFrom target edges.keys [(origin, [])]

/-- The cycle that an edge from `current` to `target` would close, with `target` at both ends. -/
def cycle? (edges : Edges α) (current target : α) : Option (List α) :=
  (edges.path? target current).map (· ++ [target])

def count (edges : Edges α) : Nat := (edges.flatMap (·.2)).length

end Edges

end LuaBundle
