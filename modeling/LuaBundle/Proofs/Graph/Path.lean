import LuaBundle.Graph.Search
import Mathlib.Data.List.Chain
import Mathlib.Data.List.Nodup
import Mathlib.Logic.Relation

/-! The path search finds a path wherever there is one. The nodes that were entered lead only to
nodes that were entered, that are pending, or that lead nowhere; when nothing is pending and the
target was not met, it is out of reach. What it finds is a path without repetition, since the way to
a pending node goes over nodes that were entered, and none is entered twice. -/

namespace LuaBundle.Edges

open Relation

variable {α : Type} [DecidableEq α]

/-- Whether an edge leads from one node to another. -/
def Leads (edges : Edges α) (a b : α) : Prop := b ∈ edges.successors a

/-- What the search knows of the nodes that it entered: none of them is the target, and each
successor of one is entered, pending, or another node without successors. -/
def Explored (edges : Edges α) (target : α) (entered pending : List α) : Prop :=
  ∀ x ∈ entered, x ≠ target ∧ ∀ y, edges.Leads x y →
    y ∈ entered ∨ y ∈ pending ∨ (y ≠ target ∧ edges.successors y = [])

variable {edges : Edges α} {target : α}

/-- Entering a pending node makes its successors pending. -/
theorem Explored.enter {entered pending : List α} {node : α} (hne : node ≠ target)
    (h : edges.Explored target entered (node :: pending)) :
    edges.Explored target (node :: entered) (edges.successors node ++ pending) := by
  intro y hy
  rcases List.mem_cons.mp hy with rfl | hin
  · exact ⟨hne, fun z hz => .inr (.inl (List.mem_append_left _ hz))⟩
  · refine ⟨(h y hin).1, fun z hz => ?_⟩
    rcases (h y hin).2 z hz with hz | hz | hz
    · exact .inl (List.mem_cons_of_mem _ hz)
    · rcases List.mem_cons.mp hz with rfl | hz
      · exact .inl List.mem_cons_self
      · exact .inr (.inl (List.mem_append_right _ hz))
    · exact .inr (.inr hz)

/-- A pending node that was entered or leads nowhere may be left out. -/
theorem Explored.skip {entered pending : List α} {node : α} (hne : node ≠ target)
    (hnode : node ∈ entered ∨ edges.successors node = [])
    (h : edges.Explored target entered (node :: pending)) :
    edges.Explored target entered pending := by
  intro y hy
  refine ⟨(h y hy).1, fun z hz => ?_⟩
  rcases (h y hy).2 z hz with hz | hz | hz
  · exact .inl hz
  · rcases List.mem_cons.mp hz with rfl | hz
    · exact hnode.imp id fun hnil => .inr ⟨hne, hnil⟩
    · exact .inr (.inl hz)
  · exact .inr (.inr hz)

theorem Explored.unreachable {entered : List α} (h : edges.Explored target entered [])
    {x : α} (hx : x ∈ entered ∨ (x ≠ target ∧ edges.successors x = [])) :
    ¬ReflTransGen edges.Leads x target := by
  intro path
  have closed : ∀ y, ReflTransGen edges.Leads x y →
      y ∈ entered ∨ (y ≠ target ∧ edges.successors y = []) := by
    intro y hy
    induction hy with
    | refl => exact hx
    | tail _ hyz ih =>
      rcases ih with hin | ⟨_, hnil⟩
      · simpa using (h _ hin).2 _ hyz
      · simp [Leads, hnil] at hyz
  rcases closed target path with hin | ⟨hne, _⟩
  · exact (h _ hin).1 rfl
  · exact hne rfl

theorem successors_eq_nil {x : α} (h : x ∉ edges.keys) : edges.successors x = [] := by
  have : edges.get? x = none := by
    simp only [OrderedMap.get?, Option.map_eq_none_iff, List.find?_eq_none, decide_eq_true_eq]
    intro e he hk
    exact h (List.mem_map.mpr ⟨e, he, hk⟩)
  simp [successors, this]

/-- Where the search finds nothing, the target is out of reach of every node that is pending or
was entered. -/
theorem searchFrom_eq_none {fresh entered : List α} {pending : List (α × List α)}
    (hfresh : ∀ x ∈ edges.keys, x ∈ fresh ∨ x ∈ entered)
    (hexplored : edges.Explored target entered (pending.map (·.1)))
    (h : edges.searchFrom target fresh pending = none) {x : α}
    (hx : x ∈ entered ∨ x ∈ pending.map (·.1)) : ¬ReflTransGen edges.Leads x target := by
  fun_induction searchFrom edges target fresh pending generalizing entered with
  | case1 => exact hexplored.unreachable (.inl (by simpa using hx))
  | case2 => simp at h
  | case3 fresh node trail pending hne hmem ih =>
    have hfresh' : ∀ y ∈ edges.keys, y ∈ fresh.erase node ∨ y ∈ node :: entered := by
      intro y hy
      by_cases hyn : y = node
      · simp [hyn]
      · rcases hfresh y hy with hin | hin
        · exact .inl ((List.mem_erase_of_ne hyn).mpr hin)
        · exact .inr (List.mem_cons_of_mem _ hin)
    have hpending : ((edges.successors node).map (·, trail ++ [node]) ++ pending).map (·.1) =
        edges.successors node ++ pending.map (·.1) := by
      simp [Function.comp_def]
    refine ih hfresh' (hpending ▸ hexplored.enter hne) h ?_
    rw [hpending]
    rcases hx with hx | hx
    · exact .inl (List.mem_cons_of_mem _ hx)
    · rcases List.mem_cons.mp hx with rfl | hx
      · exact .inl List.mem_cons_self
      · exact .inr (List.mem_append_right _ hx)
  | case4 fresh node trail pending hne hmem ih =>
    have settled : node ∈ entered ∨ edges.successors node = [] := by
      by_cases hk : node ∈ edges.keys
      · exact .inl ((hfresh node hk).resolve_left hmem)
      · exact .inr (successors_eq_nil hk)
    have skipped := hexplored.skip hne settled
    rcases hx with hx | hx
    · exact ih hfresh skipped h (.inl hx)
    · rcases List.mem_cons.mp hx with rfl | hx
      · rcases settled with hin | hnil
        · exact ih hfresh skipped h (.inl hin)
        · intro path
          rcases ReflTransGen.cases_head path with heq | ⟨y, hy, _⟩
          · exact hne heq
          · simp [Leads, hnil] at hy
      · exact ih hfresh skipped h (.inr hx)

/-- A node to which no path is found is out of reach. -/
theorem path?_eq_none {origin : α} (h : edges.path? origin target = none) :
    ¬ReflTransGen edges.Leads origin target := by
  have nothing : edges.Explored target [] [origin] := fun _ hx => absurd hx List.not_mem_nil
  exact searchFrom_eq_none (fun _ hx => .inl hx) nothing h (.inr List.mem_cons_self)

/-- An edge that is found to close no cycle leads to a node from which its start is out of
reach. -/
theorem cycle?_eq_none {current : α} (h : edges.cycle? current target = none) :
    ¬ReflTransGen edges.Leads target current :=
  path?_eq_none (by simpa [cycle?] using h)

/-- A path along edges from one node to another that repeats no node. -/
structure IsPath (edges : Edges α) (origin target : α) (path : List α) : Prop where
  first : path.head? = some origin
  last : path.getLast? = some target
  chain : path.IsChain edges.Leads
  nodup : path.Nodup

/-- A pending node with the way to it, over nodes that were entered and are not the target. -/
structure IsPending (edges : Edges α) (origin target : α) (fresh : List α) (node : α)
    (trail : List α) : Prop where
  first : (trail ++ [node]).head? = some origin
  chain : (trail ++ [node]).IsChain edges.Leads
  nodup : trail.Nodup
  entered : ∀ x ∈ trail, x ≠ target ∧ x ∉ fresh

variable {origin : α}

theorem IsPending.mono {fresh fresh' trail : List α} {node : α} (hsub : fresh' ⊆ fresh)
    (h : edges.IsPending origin target fresh node trail) :
    edges.IsPending origin target fresh' node trail :=
  ⟨h.first, h.chain, h.nodup, fun x hx => ⟨(h.entered x hx).1, fun hf => (h.entered x hx).2
    (hsub hf)⟩⟩

/-- From a node that is entered the ways go on to its successors. -/
theorem IsPending.enter {fresh trail : List α} {node next : α} (hfresh : fresh.Nodup)
    (hmem : node ∈ fresh) (hne : node ≠ target) (hnext : edges.Leads node next)
    (h : edges.IsPending origin target fresh node trail) :
    edges.IsPending origin target (fresh.erase node) next (trail ++ [node]) where
  first := by
    rw [List.head?_append, h.first]
    rfl
  chain := h.chain.append (List.isChain_singleton next) (by simpa using hnext)
  nodup := h.nodup.append (List.nodup_singleton node)
    (List.disjoint_singleton.mpr fun hin => (h.entered node hin).2 hmem)
  entered x hx := by
    rcases List.mem_append.mp hx with hx | hx
    · exact ⟨(h.entered x hx).1, fun hf => (h.entered x hx).2 (List.mem_of_mem_erase hf)⟩
    · obtain rfl := List.mem_singleton.mp hx
      exact ⟨hne, fun hf => hfresh.not_mem_erase hf⟩

theorem searchFrom_eq_some {fresh path : List α} {pending : List (α × List α)}
    (hfresh : fresh.Nodup)
    (hpending : ∀ e ∈ pending, edges.IsPending origin target fresh e.1 e.2)
    (h : edges.searchFrom target fresh pending = some path) : edges.IsPath origin target path := by
  fun_induction searchFrom edges target fresh pending with
  | case1 => cases h
  | case2 fresh trail pending =>
    obtain rfl := Option.some.inj h
    obtain ⟨hfirst, hchain, hnodup, hentered⟩ := hpending _ List.mem_cons_self
    refine ⟨hfirst, List.getLast?_concat, hchain, hnodup.append (List.nodup_singleton target) ?_⟩
    exact List.disjoint_singleton.mpr fun hin => (hentered target hin).1 rfl
  | case3 fresh node trail pending hne hmem ih =>
    obtain ⟨hnode, hrest⟩ := List.forall_mem_cons.mp hpending
    refine ih (hfresh.erase node) (fun e he => ?_) h
    rcases List.mem_append.mp he with he | he
    · obtain ⟨next, hnext, rfl⟩ := List.mem_map.mp he
      exact hnode.enter hfresh hmem hne hnext
    · exact (hrest e he).mono List.erase_subset
  | case4 fresh node trail pending hne hmem ih =>
    exact ih hfresh (List.forall_mem_cons.mp hpending).2 h

/-- What the search finds in a map of edges is a path. -/
theorem path?_eq_some {path : List α} (hkeys : edges.keys.Nodup)
    (h : edges.path? origin target = some path) : edges.IsPath origin target path := by
  refine searchFrom_eq_some hkeys (fun e he => ?_) h
  obtain rfl := List.mem_singleton.mp he
  exact ⟨rfl, List.isChain_singleton origin, List.nodup_nil, by simp⟩

end LuaBundle.Edges
