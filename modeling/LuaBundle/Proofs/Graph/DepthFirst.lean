import LuaBundle.Proofs.Graph.Path
import LuaBundle.Proofs.Recorded
import Mathlib.Data.List.Perm.Basic

/-! The path search as visits that visit further nodes. A visit to a node that is neither the target
nor entered before enters it and visits its successors in turn, each with what was entered until
then. A node is entered at most once, so that all visits come to an end, and there is at most one
for each edge besides the one to the origin. What they find is a path, and they find one wherever
the target can be reached. -/

namespace LuaBundle.Edges

open Relation

variable {α : Type} [DecidableEq α]

/-- Visits to `nodes` one after the other, with `trail` as the way to each of them, up to the first
that finds the target. The nodes `entered` were entered before them, the nodes `after` when they
have ended. Their number `visits` counts all those that they bring about, and `found` is the path,
if there is one. -/
inductive Visited (edges : Edges α) (target : α) : (entered trail nodes : List α) →
    (visits : Nat) → (found : Option (List α)) → (after : List α) → Prop
  | finish {entered trail : List α} : Visited edges target entered trail [] 0 none entered
  | arrive {entered trail nodes : List α} :
      Visited edges target entered trail (target :: nodes) 1 (some (trail ++ [target])) entered
  | skip {entered trail nodes after : List α} {node : α} {visits : Nat} {found : Option (List α)} :
      node ≠ target → node ∈ entered →
      Visited edges target entered trail nodes visits found after →
      Visited edges target entered trail (node :: nodes) (visits + 1) found after
  | enter {entered trail nodes path after : List α} {node : α} {visits : Nat} :
      node ≠ target → node ∉ entered →
      Visited edges target (node :: entered) (trail ++ [node]) (edges.successors node) visits
        (some path) after →
      Visited edges target entered trail (node :: nodes) (visits + 1) (some path) after
  | leave {entered trail nodes between after : List α} {node : α} {inner visits : Nat}
      {found : Option (List α)} :
      node ≠ target → node ∉ entered →
      Visited edges target (node :: entered) (trail ++ [node]) (edges.successors node) inner none
        between →
      Visited edges target between trail nodes visits found after →
      Visited edges target entered trail (node :: nodes) (inner + visits + 1) found after

/-- The nodes `fresh` are those with successors that were not entered. -/
structure IsFresh (edges : Edges α) (entered fresh : List α) : Prop where
  nodup : fresh.Nodup
  mem_iff : ∀ x, x ∈ fresh ↔ x ∈ edges.keys ∧ x ∉ entered

/-- The number of edges that lead from nodes. -/
def outgoing (edges : Edges α) (nodes : List α) : Nat := (nodes.flatMap edges.successors).length

variable {edges : Edges α} {target node : α} {entered fresh : List α}

theorem IsFresh.enter (h : edges.IsFresh entered fresh) (node : α) :
    edges.IsFresh (node :: entered) (fresh.erase node) where
  nodup := h.nodup.erase node
  mem_iff x := by
    rw [h.nodup.mem_erase_iff, h.mem_iff, List.mem_cons, not_or]
    tauto

/-- A node that was not entered is fresh, or it leads nowhere. -/
theorem IsFresh.mem_or_nil (h : edges.IsFresh entered fresh) (hnew : node ∉ entered) :
    node ∈ fresh ∨ node ∉ fresh ∧ edges.successors node = [] := by
  by_cases hkey : node ∈ edges.keys
  · exact .inl ((h.mem_iff node).mpr ⟨hkey, hnew⟩)
  · exact .inr ⟨fun hin => hkey ((h.mem_iff node).mp hin).1, successors_eq_nil hkey⟩

theorem IsFresh.outgoing_erase (h : edges.IsFresh entered fresh) (hnew : node ∉ entered) :
    (edges.successors node).length + edges.outgoing (fresh.erase node) = edges.outgoing fresh := by
  rcases h.mem_or_nil hnew with hin | ⟨hin, hnil⟩
  · have := ((List.perm_cons_erase hin).flatMap_right edges.successors).length_eq
    rw [outgoing, outgoing, this, List.flatMap_cons, List.length_append]
  · rw [List.erase_of_not_mem hin, hnil, List.length_nil, Nat.zero_add]

/-- What the search does with a node that it was not at before. -/
theorem IsFresh.searchFrom_enter (h : edges.IsFresh entered fresh) (hne : node ≠ target)
    (hnew : node ∉ entered) (trail : List α) (pending : List (α × List α)) :
    edges.searchFrom target fresh ((node, trail) :: pending) =
      edges.searchFrom target (fresh.erase node)
        ((edges.successors node).map (·, trail ++ [node]) ++ pending) := by
  rw [searchFrom, if_neg hne]
  rcases h.mem_or_nil hnew with hin | ⟨hin, hnil⟩
  · rw [if_pos hin]
  · rw [if_neg hin, List.erase_of_not_mem hin, hnil, List.map_nil, List.nil_append]

/-- The search goes through pending nodes with one trail as the visits to them do. -/
structure Agrees (edges : Edges α) (target : α) (entered fresh trail nodes : List α) (visits : Nat)
    (found : Option (List α)) (after left : List α) : Prop where
  visited : edges.Visited target entered trail nodes visits found after
  isFresh : edges.IsFresh after left
  length_le : left.length ≤ fresh.length
  visits_le : visits + edges.outgoing left ≤ nodes.length + edges.outgoing fresh
  search : ∀ pending, edges.searchFrom target fresh (nodes.map (·, trail) ++ pending) =
    found.or (edges.searchFrom target left pending)

namespace Agrees

variable {trail nodes after left between path : List α} {visits inner : Nat}
  {found : Option (List α)}

theorem finish (h : edges.IsFresh entered fresh) :
    edges.Agrees target entered fresh trail [] 0 none entered fresh :=
  ⟨.finish, h, Nat.le_refl _, Nat.le_refl _, fun _ => rfl⟩

theorem arrive (h : edges.IsFresh entered fresh) :
    edges.Agrees target entered fresh trail (target :: nodes) 1 (some (trail ++ [target])) entered
      fresh := by
  refine ⟨.arrive, h, Nat.le_refl _, ?_, fun pending => ?_⟩
  · rw [List.length_cons]
    omega
  · rw [List.map_cons, List.cons_append, searchFrom, if_pos rfl]
    rfl

theorem skip (h : edges.IsFresh entered fresh) (hne : node ≠ target) (hold : node ∈ entered)
    (hrest : edges.Agrees target entered fresh trail nodes visits found after left) :
    edges.Agrees target entered fresh trail (node :: nodes) (visits + 1) found after left := by
  refine ⟨hrest.visited.skip hne hold, hrest.isFresh, hrest.length_le, ?_, fun pending => ?_⟩
  · have := hrest.visits_le
    rw [List.length_cons]
    omega
  · have hstale : node ∉ fresh := fun hin => ((h.mem_iff node).mp hin).2 hold
    rw [List.map_cons, List.cons_append, searchFrom, if_neg hne, if_neg hstale, hrest.search]

theorem enter (h : edges.IsFresh entered fresh) (hne : node ≠ target) (hnew : node ∉ entered)
    (hinner : edges.Agrees target (node :: entered) (fresh.erase node) (trail ++ [node])
      (edges.successors node) visits (some path) after left) :
    edges.Agrees target entered fresh trail (node :: nodes) (visits + 1) (some path) after
      left := by
  refine ⟨hinner.visited.enter hne hnew, hinner.isFresh, ?_, ?_, fun pending => ?_⟩
  · exact hinner.length_le.trans List.length_erase_le
  · have := hinner.visits_le
    have := h.outgoing_erase hnew
    rw [List.length_cons]
    omega
  · rw [List.map_cons, List.cons_append, h.searchFrom_enter hne hnew, hinner.search]
    rfl

theorem leave (h : edges.IsFresh entered fresh) (hne : node ≠ target) (hnew : node ∉ entered)
    (hinner : edges.Agrees target (node :: entered) (fresh.erase node) (trail ++ [node])
      (edges.successors node) inner none between left)
    {left' : List α}
    (hrest : edges.Agrees target between left trail nodes visits found after left') :
    edges.Agrees target entered fresh trail (node :: nodes) (inner + visits + 1) found after
      left' := by
  refine ⟨hinner.visited.leave hne hnew hrest.visited, hrest.isFresh, ?_, ?_, fun pending => ?_⟩
  · exact hrest.length_le.trans (hinner.length_le.trans List.length_erase_le)
  · have := hinner.visits_le
    have := hrest.visits_le
    have := h.outgoing_erase hnew
    rw [List.length_cons]
    omega
  · rw [List.map_cons, List.cons_append, h.searchFrom_enter hne hnew, hinner.search,
      Option.none_or, hrest.search]

end Agrees

/-- Wherever the search is, the visits to nodes that are pending come to an end. -/
theorem exists_agrees (target : α) {entered fresh : List α} (h : edges.IsFresh entered fresh)
    (trail nodes : List α) : ∃ visits found after left,
      edges.Agrees target entered fresh trail nodes visits found after left := by
  match nodes with
  | [] => exact ⟨_, _, _, _, .finish h⟩
  | node :: nodes =>
    by_cases htarget : node = target
    · subst htarget
      exact ⟨_, _, _, _, .arrive h⟩
    by_cases hin : node ∈ entered
    · obtain ⟨_, _, _, _, hrest⟩ := exists_agrees target h trail nodes
      exact ⟨_, _, _, _, hrest.skip h htarget hin⟩
    · have hsmaller : (fresh.erase node).length < fresh.length ∨
          (fresh.erase node).length = fresh.length ∧ edges.successors node = [] := by
        rcases h.mem_or_nil hin with hfresh | ⟨hfresh, hnil⟩
        · have := List.length_pos_of_mem hfresh
          rw [List.length_erase_of_mem hfresh]
          omega
        · exact .inr ⟨by rw [List.erase_of_not_mem hfresh], hnil⟩
      obtain ⟨_, found, _, left, hinner⟩ :=
        exists_agrees target (h.enter node) (trail ++ [node]) (edges.successors node)
      cases found with
      | some path => exact ⟨_, _, _, _, hinner.enter h htarget hin⟩
      | none =>
        have hless : left.length ≤ fresh.length :=
          hinner.length_le.trans List.length_erase_le
        obtain ⟨_, _, _, _, hrest⟩ := exists_agrees target hinner.isFresh trail nodes
        exact ⟨_, _, _, _, hinner.leave h htarget hin hrest⟩
-- A node that leads nowhere leaves the fresh ones as they are, but it has no successors to visit.
termination_by (fresh.length, nodes.length)
decreasing_by
  · exact .right _ (Nat.lt_succ_self _)
  · rcases hsmaller with hlt | ⟨heq, hnil⟩
    · exact .left _ _ hlt
    · rw [heq, hnil]
      exact .right _ (Nat.succ_pos _)
  · rcases hless.lt_or_eq with hlt | heq
    · exact .left _ _ hlt
    · rw [heq]
      exact .right _ (Nat.lt_succ_self _)

/-- A map that has each key once gives a key the successors it is paired with. -/
theorem successors_of_mem (hkeys : edges.keys.Nodup) {e : α × List α} (he : e ∈ edges) :
    edges.successors e.1 = e.2 := by
  induction edges with
  | nil => cases he
  | cons first rest ih =>
    obtain ⟨hfirst, hrest⟩ := List.nodup_cons.mp hkeys
    rcases List.mem_cons.mp he with rfl | he
    · simp [successors, OrderedMap.get?]
    · have hne : first.1 ≠ e.1 := fun heq => hfirst (List.mem_map.mpr ⟨e, he, heq.symm⟩)
      have := ih hrest he
      simp only [successors, OrderedMap.get?] at this ⊢
      rwa [List.find?_cons_of_neg (by simpa using hne)]

theorem outgoing_keys (hkeys : edges.keys.Nodup) : edges.outgoing edges.keys = edges.count := by
  have : edges.flatMap (fun e => edges.successors e.1) = edges.flatMap (·.2) :=
    List.flatMap_congr fun e he => successors_of_mem hkeys he
  rw [outgoing, count, ← this, OrderedMap.keys, List.flatMap_map]

/-- The visits that begin at the origin end, and find what the search finds. -/
theorem path?_visited (hkeys : edges.keys.Nodup) (origin target : α) :
    ∃ visits ≤ edges.count + 1, ∃ after,
      edges.Visited target [] [] [origin] visits (edges.path? origin target) after := by
  have hstart : edges.IsFresh [] edges.keys := ⟨hkeys, fun x => by simp⟩
  obtain ⟨visits, found, after, left, h⟩ := exists_agrees target hstart [] [origin]
  have hfound : edges.path? origin target = found := by
    have := h.search []
    rwa [searchFrom, Option.or_none] at this
  refine ⟨visits, ?_, after, hfound ▸ h.visited⟩
  have := h.visits_le
  rw [outgoing_keys hkeys, List.length_singleton] at this
  omega

/-- Where a path leads can be reached. -/
theorem IsPath.reaches {origin : α} {path : List α} (h : edges.IsPath origin target path) :
    ReflTransGen edges.Leads origin target := by
  obtain ⟨rest, rfl⟩ := List.head?_eq_some_iff.mp h.first
  refine List.relationReflTransGen_of_exists_isChain_cons rest h.chain ?_
  exact Option.some.inj ((List.getLast?_eq_some_getLast _).symm.trans h.last)

/-- The search comes to an end, finds a path exactly where the target can be reached from the
origin, and what it finds leads from one to the other along edges and repeats no node. -/
theorem search_finds_paths (hkeys : edges.keys.Nodup) (origin target : α) :
    (∃ visits ≤ edges.count + 1, ∃ after,
      edges.Visited target [] [] [origin] visits (edges.path? origin target) after) ∧
    ((∃ path, edges.path? origin target = some path) ↔
      ReflTransGen edges.Leads origin target) ∧
    ∀ path, edges.path? origin target = some path → edges.IsPath origin target path := by
  have hpath : ∀ path, edges.path? origin target = some path → edges.IsPath origin target path :=
    fun _ h => path?_eq_some hkeys h
  refine ⟨path?_visited hkeys origin target, ⟨?_, fun hreach => ?_⟩, hpath⟩
  · rintro ⟨path, h⟩
    exact (hpath path h).reaches
  · by_contra hnone
    exact path?_eq_none (Option.eq_none_iff_forall_ne_some.mpr (not_exists.mp hnone)) hreach

/-- A way around with an edge from a node to itself, an edge that stands twice, two targets that
have no entry, and an entry that is given again. -/
def tangle : Edges Text :=
  .ofList [("e", ["b"]), ("a", ["a", "b", "b", "lost"]), ("b", ["c"]), ("c", ["a", "d"]),
    ("e", ["a"])]

theorem search_tangle :
    tangle.keys.Nodup ∧
      (∃ visits ≤ tangle.count + 1, ∃ after,
        tangle.Visited "d" [] [] ["a"] visits (some ["a", "b", "c", "d"]) after) ∧
      tangle.IsPath "a" "d" ["a", "b", "c", "d"] ∧ ¬ReflTransGen tangle.Leads "a" "e" := by
  have hkeys : tangle.keys.Nodup := OrderedMap.nodup_keys_ofList _
  have hfound : tangle.path? "a" "d" = some (["a", "b", "c", "d"] : List Text) := by
    decide +kernel
  have hmissed : tangle.path? "a" "e" = none := by decide +kernel
  obtain ⟨hvisited, -, hpath⟩ := search_finds_paths hkeys "a" "d"
  refine ⟨hkeys, hfound ▸ hvisited, hpath _ hfound, fun hreach => ?_⟩
  obtain ⟨path, h⟩ := (search_finds_paths hkeys "a" "e").2.1.mpr hreach
  rw [hmissed] at h
  cases h

end LuaBundle.Edges
