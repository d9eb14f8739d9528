/-! Finite maps that remember the order in which keys were first written, as lists of pairs. -/

namespace LuaBundle

abbrev OrderedMap (κ ν : Type) := List (κ × ν)

namespace OrderedMap

variable {κ ν : Type} [DecidableEq κ]

def get? (m : OrderedMap κ ν) (k : κ) : Option ν := (m.find? fun e => e.1 = k).map (·.2)

def keys (m : OrderedMap κ ν) : List κ := m.map (·.1)

/-- The value of a key, replaced where the key stands or added at the end. -/
def insert (m : OrderedMap κ ν) (k : κ) (v : ν) : OrderedMap κ ν :=
  match m with
  | [] => [(k, v)]
  | e :: rest => if e.1 = k then (k, v) :: rest else e :: insert rest k v

def ofList (entries : List (κ × ν)) : OrderedMap κ ν :=
  entries.foldl (fun m e => insert m e.1 e.2) []

/-- The list under a key with `v` at its end, unless it holds `v`. -/
def addTo [DecidableEq ν] (m : OrderedMap κ (List ν)) (k : κ) (v : ν) : OrderedMap κ (List ν) :=
  let vs := (get? m k).getD []
  if v ∈ vs then m else insert m k (vs ++ [v])

@[simp] theorem get?_nil (k : κ) : get? ([] : OrderedMap κ ν) k = none := rfl

theorem get?_insert (m : OrderedMap κ ν) (k j : κ) (v : ν) :
    get? (insert m k v) j = if k = j then some v else get? m j := by
  induction m with
  | nil => by_cases h : k = j <;> simp [insert, get?, h]
  | cons e rest ih =>
    simp only [get?] at ih ⊢
    simp only [insert]
    by_cases he : e.1 = k
    · by_cases h : k = j <;> simp [he, h]
    · by_cases h : k = j
      · subst h
        simpa [he] using ih
      · by_cases hj : e.1 = j <;> simp_all

end OrderedMap

end LuaBundle
