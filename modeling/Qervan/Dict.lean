import Mathlib.Data.List.Nodup

/-! # Python dictionaries

Both `planner.py` and `combinatorial.py` keep their maps in `dict`s. A `Dict κ ν` is the list of a
dictionary's items in insertion order, each key once, the invariant carried by the structure:

* `get?`, `get` and `set` are `d[k]` (`none` where Python raises `KeyError`), `d.get(k, default)`
  and `d[k] = v`, which keeps a present key in its place and puts a new one last;
* `get?_set`, `get_set`: what `d[k] = v` changes; `keys_set`, `mem_keys`: the keys it leaves. -/

namespace Qervan

/-- A Python `dict`: its items in insertion order, each key once. -/
structure Dict (κ ν : Type) [DecidableEq κ] where
  items : List (κ × ν)
  nodup : (items.map Prod.fst).Nodup

namespace Dict

variable {κ ν : Type} [DecidableEq κ]

instance [DecidableEq ν] : DecidableEq (Dict κ ν) := fun a b =>
  decidable_of_iff (a.items = b.items) (by cases a; cases b; simp)

/-- `{}`. -/
def empty : Dict κ ν := ⟨[], List.nodup_nil⟩

/-- The keys, in insertion order. -/
def keys (d : Dict κ ν) : List κ := d.items.map Prod.fst

/-- `d[k]`, `none` where Python raises `KeyError`. -/
def get? (d : Dict κ ν) (k : κ) : Option ν := d.items.lookup k

/-- `d.get(k, default)`. -/
def get (d : Dict κ ν) (k : κ) (default : ν) : ν := (d.get? k).getD default

/-- The items after `d[k] = v`: a present key keeps its place, a new one goes last. -/
def setItems (k : κ) (v : ν) : List (κ × ν) → List (κ × ν)
  | [] => [(k, v)]
  | (k', v') :: rest => if k' = k then (k, v) :: rest else (k', v') :: setItems k v rest

theorem keys_setItems (k : κ) (v : ν) : ∀ items : List (κ × ν),
    (setItems k v items).map Prod.fst =
      if k ∈ items.map Prod.fst then items.map Prod.fst else items.map Prod.fst ++ [k]
  | [] => by simp [setItems]
  | (k', v') :: rest => by
    by_cases h : k' = k
    · simp [setItems, h]
    · have := keys_setItems k v rest
      by_cases hk : k ∈ rest.map Prod.fst <;> simp_all [setItems, Ne.symm h]

theorem lookup_cons_ite (k k₀ : κ) (v : ν) (rest : List (κ × ν)) :
    ((k, v) :: rest).lookup k₀ = if k₀ = k then some v else rest.lookup k₀ := by
  by_cases h : k₀ = k
  · simp [List.lookup_cons, h]
  · simp [List.lookup_cons, beq_eq_false_iff_ne.mpr h, h]

theorem lookup_setItems (k : κ) (v : ν) (k₀ : κ) : ∀ items : List (κ × ν),
    (setItems k v items).lookup k₀ = if k₀ = k then some v else items.lookup k₀
  | [] => by simp [setItems, lookup_cons_ite]
  | (k', v') :: rest => by
    have := lookup_setItems k v k₀ rest
    by_cases h : k' = k
    · subst h; by_cases h0 : k₀ = k' <;> simp [setItems, lookup_cons_ite, h0]
    · by_cases h0 : k₀ = k' <;> by_cases h1 : k₀ = k <;> simp_all [setItems, lookup_cons_ite]

/-- `d[k] = v`. -/
def set (d : Dict κ ν) (k : κ) (v : ν) : Dict κ ν where
  items := setItems k v d.items
  nodup := by
    rw [keys_setItems]
    split_ifs with h
    · exact d.nodup
    · exact d.nodup.append (List.nodup_singleton k) (by simpa using h)

@[simp] theorem get?_empty (k : κ) : (empty : Dict κ ν).get? k = none := rfl

@[simp] theorem get?_set (d : Dict κ ν) (k k₀ : κ) (v : ν) :
    (d.set k v).get? k₀ = if k₀ = k then some v else d.get? k₀ :=
  lookup_setItems k v k₀ d.items

@[simp] theorem get_set (d : Dict κ ν) (k k₀ : κ) (v default : ν) :
    (d.set k v).get k₀ default = if k₀ = k then v else d.get k₀ default := by
  by_cases h : k₀ = k <;> simp [get, h]

@[simp] theorem get_empty (k : κ) (default : ν) : (empty : Dict κ ν).get k default = default := rfl

@[simp] theorem keys_empty : (empty : Dict κ ν).keys = [] := rfl

theorem keys_set (d : Dict κ ν) (k : κ) (v : ν) :
    (d.set k v).keys = if k ∈ d.keys then d.keys else d.keys ++ [k] :=
  keys_setItems k v d.items

theorem mem_keys {d : Dict κ ν} {k : κ} : k ∈ d.keys ↔ (d.get? k).isSome := by
  obtain ⟨items, -⟩ := d
  simp only [keys, get?]
  induction items with
  | nil => simp
  | cons it items ih =>
    obtain ⟨k', v'⟩ := it
    by_cases h : k = k' <;> simp [lookup_cons_ite, h, ih]

theorem get?_of_mem {d : Dict κ ν} {k : κ} {v : ν} (h : (k, v) ∈ d.items) : d.get? k = some v := by
  obtain ⟨items, hnd⟩ := d
  simp only [get?] at h ⊢
  induction items with
  | nil => simp at h
  | cons it items ih =>
    obtain ⟨k', v'⟩ := it
    simp only [List.map_cons, List.nodup_cons] at hnd
    rw [lookup_cons_ite]
    rcases List.mem_cons.mp h with h | h
    · obtain ⟨rfl, rfl⟩ := Prod.mk.inj h
      simp
    · have hk : k ≠ k' := fun hk => hnd.1 (hk ▸ List.mem_map_of_mem Prod.fst h)
      simp [hk, ih hnd.2 h]

theorem mem_of_get? {d : Dict κ ν} {k : κ} {v : ν} (h : d.get? k = some v) : (k, v) ∈ d.items := by
  obtain ⟨items, hnd⟩ := d
  simp only [get?] at h ⊢
  clear hnd
  induction items with
  | nil => simp at h
  | cons it items ih =>
    obtain ⟨k', v'⟩ := it
    rw [lookup_cons_ite] at h
    by_cases hk : k = k'
    · subst hk
      obtain rfl : v' = v := Option.some.inj (by simpa using h)
      exact List.mem_cons_self _ _
    · simp only [hk, if_false] at h
      exact List.mem_cons_of_mem _ (ih h)

theorem get_eq_of_get? {d : Dict κ ν} {k : κ} {v : ν} (h : d.get? k = some v) (default : ν) :
    d.get k default = v := by
  simp [get, h]

theorem get_of_get?_eq_none {d : Dict κ ν} {k : κ} (h : d.get? k = none) (default : ν) :
    d.get k default = default := by
  simp [get, h]

end Dict

end Qervan
