import LuaBundle.Manifest
import LuaBundle.OrderedMap
import Mathlib.Data.List.Induction
import Mathlib.Data.List.Nodup

/-! Lists in which each value stands once, where it occurred first, and the maps that collect such
lists: adding pairs one after the other records under each key the values that it was paired
with. -/

namespace LuaBundle

namespace Manifest

theorem mem_distinct {x : Text} {xs : List Text} : x ∈ distinct xs ↔ x ∈ xs := by
  induction xs with
  | nil => simp [distinct]
  | cons y rest ih =>
    by_cases h : x = y
    · simp [distinct, h]
    · simp [distinct, h, ih]

theorem nodup_distinct (xs : List Text) : (distinct xs).Nodup := by
  induction xs with
  | nil => exact List.nodup_nil
  | cons y rest ih =>
    refine List.nodup_cons.mpr ⟨?_, ih.filter _⟩
    simp

/-- A value at the end counts only if it did not occur before. -/
theorem distinct_concat (xs : List Text) (x : Text) :
    distinct (xs ++ [x]) = if x ∈ xs then distinct xs else distinct xs ++ [x] := by
  induction xs with
  | nil => rfl
  | cons y rest ih =>
    rw [List.cons_append, distinct, ih]
    by_cases hy : x = y
    · subst hy
      by_cases hx : x ∈ rest <;> simp [distinct, hx]
    · by_cases hx : x ∈ rest <;> simp [distinct, hx, hy]

end Manifest

namespace OrderedMap

variable {κ : Type} [DecidableEq κ]

/-- What a map that collects values holds under a key that occurred with the values `vs`. -/
def recorded (vs : List Text) : Option (List Text) :=
  if vs = [] then none else some (Manifest.distinct vs)

theorem recorded_getD (vs : List Text) : (recorded vs).getD [] = Manifest.distinct vs := by
  cases vs <;> rfl

theorem recorded_concat (vs : List Text) (v : Text) :
    recorded (vs ++ [v]) =
      some (if v ∈ vs then Manifest.distinct vs else Manifest.distinct vs ++ [v]) := by
  simp [recorded, Manifest.distinct_concat]

/-- The map that collects the values of pairs under their keys. -/
def collect (pairs : List (κ × Text)) : OrderedMap κ (List Text) :=
  pairs.foldl (fun m e => addTo m e.1 e.2) []

theorem collect_concat (pairs : List (κ × Text)) (k : κ) (v : Text) :
    collect (pairs ++ [(k, v)]) = addTo (collect pairs) k v := by
  simp [collect]

theorem get?_addTo (m : OrderedMap κ (List Text)) (k j : κ) (v : Text) :
    get? (addTo m k v) j =
      if k = j then
        some (if v ∈ (get? m k).getD [] then (get? m k).getD [] else (get? m k).getD [] ++ [v])
      else get? m j := by
  simp only [addTo]
  by_cases hv : v ∈ (get? m k).getD []
  · rw [if_pos hv]
    by_cases hj : k = j
    · subst hj
      cases h : get? m k with
      | none => simp [h] at hv
      | some vs => simp_all
    · simp [hj]
  · simp [hv, get?_insert]

theorem keys_insert {ν : Type} (m : OrderedMap κ ν) (k : κ) (v : ν) :
    keys (insert m k v) = if k ∈ keys m then keys m else keys m ++ [k] := by
  induction m with
  | nil => rfl
  | cons e rest ih =>
    simp only [keys] at ih ⊢
    by_cases he : e.1 = k
    · simp [insert, he]
    · by_cases hk : k ∈ rest.map (·.1) <;> simp [insert, he, Ne.symm he, ih, hk]

theorem nodup_keys_insert {ν : Type} {m : OrderedMap κ ν} (h : (keys m).Nodup) (k : κ) (v : ν) :
    (keys (insert m k v)).Nodup := by
  rw [keys_insert]
  split
  · exact h
  · rename_i hk
    exact h.append (List.nodup_singleton _) (List.disjoint_singleton.mpr hk)

/-- A map that is made of entries has each key once. -/
theorem nodup_keys_ofList {ν : Type} (entries : List (κ × ν)) : (keys (ofList entries)).Nodup := by
  induction entries using List.reverseRecOn with
  | nil => exact List.nodup_nil
  | append_singleton entries e ih =>
    rw [ofList, List.foldl_append]
    exact nodup_keys_insert ih e.1 e.2

/-- A map that collects values has each key once. -/
theorem nodup_keys_collect (pairs : List (κ × Text)) : (keys (collect pairs)).Nodup := by
  induction pairs using List.reverseRecOn with
  | nil => exact List.nodup_nil
  | append_singleton pairs e ih =>
    rw [collect_concat, addTo]
    split
    · exact ih
    · exact nodup_keys_insert ih e.1 _

/-- The values that a key is paired with. -/
def valuesOf (pairs : List (κ × Text)) (k : κ) : List Text :=
  (pairs.filter fun e => e.1 = k).map (·.2)

theorem valuesOf_concat (pairs : List (κ × Text)) (k j : κ) (v : Text) :
    valuesOf (pairs ++ [(k, v)]) j =
      if k = j then valuesOf pairs j ++ [v] else valuesOf pairs j := by
  by_cases h : k = j <;> simp [valuesOf, h]

theorem get?_collect (pairs : List (κ × Text)) (k : κ) :
    get? (collect pairs) k = recorded (valuesOf pairs k) := by
  induction pairs using List.reverseRecOn with
  | nil => rfl
  | append_singleton pairs e ih =>
    obtain ⟨j, v⟩ := e
    rw [collect_concat, get?_addTo, valuesOf_concat]
    by_cases h : j = k
    · subst h
      simp [ih, recorded_getD, recorded_concat, Manifest.mem_distinct]
    · simp [h, ih]

/-- Where all entries of a key agree, the map made of them holds their value. -/
theorem get?_ofList_of_forall {ν : Type} {entries : List (κ × ν)} {k : κ} {v : ν}
    (hk : k ∈ entries.map (·.1)) (hv : ∀ e ∈ entries, e.1 = k → e.2 = v) :
    get? (ofList entries) k = some v := by
  induction entries using List.reverseRecOn with
  | nil => simp at hk
  | append_singleton entries e ih =>
    rw [ofList, List.foldl_append]
    change get? (insert (ofList entries) e.1 e.2) k = _
    rw [get?_insert]
    by_cases he : e.1 = k
    · rw [if_pos he, hv e (by simp) he]
    · rw [if_neg he]
      refine ih ?_ fun e' he' => hv e' (List.mem_append_left _ he')
      simpa [Ne.symm he] using hk

theorem get?_ofList_eq_none {ν : Type} {entries : List (κ × ν)} {k : κ}
    (hk : k ∉ entries.map (·.1)) : get? (ofList entries) k = none := by
  induction entries using List.reverseRecOn with
  | nil => rfl
  | append_singleton entries e ih =>
    simp only [List.map_append, List.mem_append, not_or] at hk
    rw [ofList, List.foldl_append]
    change get? (insert (ofList entries) e.1 e.2) k = _
    rw [get?_insert, if_neg fun he => hk.2 (by simp [he]), ih hk.1]

end OrderedMap

end LuaBundle
