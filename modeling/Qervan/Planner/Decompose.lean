import Qervan.Planner.Model
import Mathlib.Data.Fin.VecNotation

/-! # `decompose`: the options of a composite node

Both `decompose` methods run the same loop over `_children`: `child.validate_resources(pool)`; a
child that passes is kept, a `ResourceConflictError` skips it (`continue`), any other exception
escapes (`keepFeasible`). `ANDNode` returns the kept children as one option, or no option if none
was kept; `ORNode` returns one singleton option per kept child.

No class of `planner.py` defines `validate_resources`. The loop is therefore modelled for any
`Validator`: `validateResourcesMissing` is what Python does with the call (an `AttributeError`),
`validateResources` is the check the spec describes.

* `decompose_option`: every option is a non-empty sublist of the node's children, each child of it
  passed the validator, a singleton for an `ORNode`.
* `keepFeasible_eq_filter`: when the validator raises only `ResourceConflictError`, the loop keeps
  exactly the children that pass, in order; so an `ANDNode` keeps its feasible children even when
  another child is infeasible (`andDecompose_mixed`). -/

namespace Qervan.Planner.Decompose

open Qervan.Planner.Model

variable {n : Nat}

/-- What the call `child.validate_resources(available_resources)` does. -/
abbrev Validator (n : Nat) := TaskNode n → Dict String Int → Except PlanError Unit

/-- `child.validate_resources(...)` as Python runs it: the class of `child` has no such
attribute. -/
def validateResourcesMissing (child : TaskNode n) (_ : Dict String Int) : Except PlanError Unit :=
  .error (.attributeError
    ("\x27" ++ child.kind.className ++ "\x27 object has no attribute \x27validate_resources\x27"))

/-- Modelled from the spec: `validate_resources`, called by both `decompose` methods but defined in
no class of `planner.py`. Section 4.1 calls a child individually resource-feasible when each of its
requirements fits the pool; an infeasible child raises the `ResourceConflictError` the loop
catches. -/
def validateResources (child : TaskNode n) (pool : Dict String Int) : Except PlanError Unit :=
  match child.resources.items.find? fun it => it.2 > pool.get it.1 0 with
  | none => .ok ()
  | some it => .error (.resourceConflictError ("Insufficient " ++ it.1))

/-- One iteration of `for child in self._children` in a `decompose`: `wrap child` is what the method
appends (`child` for `ANDNode`, `[child]` for `ORNode`). -/
def keepStep {α : Type} (vr : Validator n) (g : TaskGraph n) (pool : Dict String Int)
    (wrap : Fin n → α) (acc : List α) (child : Fin n) : Except PlanError (List α) :=
  match vr (g child) pool with
  | .ok () => .ok (acc ++ [wrap child])
  | .error e => if e.isResourceConflict then .ok acc else .error e

/-- The loop both `decompose` methods run over `self._children`. -/
def keepFeasible {α : Type} (vr : Validator n) (g : TaskGraph n) (self : Fin n)
    (pool : Dict String Int) (wrap : Fin n → α) : Except PlanError (List α) :=
  (g self).children.foldlM (keepStep vr g pool wrap) []

/-- `ANDNode.decompose(available_resources)`: `[options] if options else []`. -/
def ANDNode.decompose (vr : Validator n) (g : TaskGraph n) (self : Fin n)
    (availableResources : Dict String Int) : Except PlanError (List (List (Fin n))) :=
  (fun options => if options.isEmpty then [] else [options]) <$>
    keepFeasible vr g self availableResources fun child => child

/-- `ORNode.decompose(available_resources)`. -/
def ORNode.decompose (vr : Validator n) (g : TaskGraph n) (self : Fin n)
    (availableResources : Dict String Int) : Except PlanError (List (List (Fin n))) :=
  keepFeasible vr g self availableResources fun child => [child]

/-- `node.decompose(pool)`, dispatched on the class; `AtomicNode` defines no `decompose`. -/
def decompose (vr : Validator n) (g : TaskGraph n) (node : Fin n) (pool : Dict String Int) :
    Except PlanError (List (List (Fin n))) :=
  match (g node).kind with
  | .and => ANDNode.decompose vr g node pool
  | .or => ORNode.decompose vr g node pool
  | .atomic =>
    .error (.attributeError "\x27AtomicNode\x27 object has no attribute \x27decompose\x27")

/-! ### What the loop keeps -/

variable {vr : Validator n} {g : TaskGraph n} {pool : Dict String Int}

/-- The loop from any start keeps, after it, a sublist of the children it ran over, each of which
passed. -/
theorem foldlM_keepStep {α : Type} (wrap : Fin n → α) : ∀ (cs : List (Fin n)) (acc l : List α),
    cs.foldlM (keepStep vr g pool wrap) acc = .ok l →
      ∃ kept : List (Fin n), kept.Sublist cs ∧ (∀ c ∈ kept, vr (g c) pool = .ok ()) ∧
        l = acc ++ kept.map wrap
  | [], acc, l, h => by cases h; exact ⟨[], by simp, by simp, by simp⟩
  | c :: cs, acc, l, h => by
    rw [List.foldlM_cons] at h
    obtain ⟨acc', h1, h2⟩ := bind_eq_ok.mp h
    obtain ⟨kept, hsub, hok, rfl⟩ := foldlM_keepStep wrap cs acc' l h2
    simp only [keepStep] at h1
    cases hv : vr (g c) pool with
    | ok u =>
      simp only [hv, Except.ok.injEq] at h1
      subst h1
      exact ⟨c :: kept, hsub.cons_cons c, by simpa [hv] using hok, by simp⟩
    | error e =>
      simp only [hv] at h1
      split_ifs at h1
      cases h1
      exact ⟨kept, hsub.cons c, hok, rfl⟩

theorem keepFeasible_ok {α : Type} {self : Fin n} {wrap : Fin n → α} {l : List α}
    (h : keepFeasible vr g self pool wrap = .ok l) :
    ∃ kept : List (Fin n), kept.Sublist (g self).children ∧ (∀ c ∈ kept, vr (g c) pool = .ok ()) ∧
      l = kept.map wrap := by
  simpa using foldlM_keepStep wrap _ [] l h

/-- The loop raises only what the validator raises, other than `ResourceConflictError`. -/
theorem keepFeasible_error {α : Type} {self : Fin n} {wrap : Fin n → α} {e : PlanError}
    (h : keepFeasible vr g self pool wrap = .error e) :
    ∃ c, vr (g c) pool = .error e ∧ e.isResourceConflict = false := by
  refine foldlM_error (fun e => ∃ c, vr (g c) pool = .error e ∧ e.isResourceConflict = false)
    (fun acc c e h => ?_) _ _ _ h
  simp only [keepStep] at h
  cases hv : vr (g c) pool with
  | ok u => simp [hv] at h
  | error e' =>
    simp only [hv] at h
    split_ifs at h with he
    cases h
    exact ⟨c, hv, by simpa using he⟩

/-- When the validator raises nothing but `ResourceConflictError`, the loop keeps exactly the
children that pass, in order. -/
theorem keepFeasible_eq_filter {α : Type} (self : Fin n) (wrap : Fin n → α)
    (hvr : ∀ c ∈ (g self).children, vr (g c) pool = .ok () ∨
      ∃ e, vr (g c) pool = .error e ∧ e.isResourceConflict) :
    keepFeasible vr g self pool wrap =
      .ok (((g self).children.filter fun c => (vr (g c) pool).toBool).map wrap) := by
  suffices ∀ (cs : List (Fin n)) (acc : List α), (∀ c ∈ cs, vr (g c) pool = .ok () ∨
      ∃ e, vr (g c) pool = .error e ∧ e.isResourceConflict) →
      cs.foldlM (keepStep vr g pool wrap) acc =
        .ok (acc ++ (cs.filter fun c => (vr (g c) pool).toBool).map wrap) by
    simpa using this _ [] hvr
  intro cs
  induction cs with
  | nil => intro acc _; simp; rfl
  | cons c cs ih =>
    intro acc hcs
    rw [List.foldlM_cons]
    have hcs' : ∀ c ∈ cs, vr (g c) pool = .ok () ∨
        ∃ e, vr (g c) pool = .error e ∧ e.isResourceConflict :=
      fun c hc => hcs c (List.mem_cons_of_mem _ hc)
    rcases hcs c (List.mem_cons_self _ _) with h | ⟨e, h, he⟩
    · have hstep : keepStep vr g pool wrap acc c = .ok (acc ++ [wrap c]) := by simp [keepStep, h]
      rw [hstep, bind_ok_eq, ih _ hcs']
      simp [h, Except.toBool]
    · have hstep : keepStep vr g pool wrap acc c = .ok acc := by simp [keepStep, h, he]
      rw [hstep, bind_ok_eq, ih _ hcs']
      simp [h, Except.toBool]

/-- **The options of a node.** Every option `decompose` returns is a non-empty sublist of the node's
children whose members all passed `validate_resources`, and a single child for an `ORNode`. -/
theorem decompose_option {m : Fin n} {decs : List (List (Fin n))} {o : List (Fin n)}
    (h : decompose vr g m pool = .ok decs) (ho : o ∈ decs) :
    (g m).kind ≠ .atomic ∧ o ≠ [] ∧ o.Sublist (g m).children ∧
      (∀ c ∈ o, vr (g c) pool = .ok ()) ∧ ((g m).kind = .or → ∃ c, o = [c]) := by
  cases hk : (g m).kind with
  | and =>
    simp only [decompose, hk, ANDNode.decompose] at h
    cases hl : keepFeasible vr g m pool (fun c => c) with
    | error e => simp [hl, Functor.map, Except.map] at h
    | ok l =>
      simp only [hl, Functor.map, Except.map, Except.ok.injEq] at h
      subst h
      obtain ⟨kept, hsub, hok, rfl⟩ := keepFeasible_ok hl
      split_ifs at ho with he
      · simp at ho
      · simp only [List.mem_singleton] at ho
        subst ho
        exact ⟨by simp, by simpa using he, by simpa using hsub, by simpa using hok, by simp⟩
  | or =>
    simp only [decompose, hk, ORNode.decompose] at h
    obtain ⟨kept, hsub, hok, rfl⟩ := keepFeasible_ok h
    obtain ⟨c, hc, rfl⟩ := List.mem_map.mp ho
    exact ⟨by simp, by simp, List.singleton_sublist.mpr (hsub.subset hc),
      by simpa using hok c hc, fun _ => ⟨c, rfl⟩⟩
  | atomic => simp [decompose, hk] at h

/-- `decompose` raises only on an `AtomicNode`, or what the validator raises, other than
`ResourceConflictError`. -/
theorem decompose_error {m : Fin n} {e : PlanError} (h : decompose vr g m pool = .error e) :
    (g m).kind = .atomic ∨ ∃ c, vr (g c) pool = .error e ∧ e.isResourceConflict = false := by
  cases hk : (g m).kind with
  | and =>
    simp only [decompose, hk, ANDNode.decompose] at h
    cases hl : keepFeasible vr g m pool (fun c => c) with
    | error e' =>
      simp only [hl, Functor.map, Except.map, Except.error.injEq] at h
      subst h
      exact .inr (keepFeasible_error hl)
    | ok l => simp [hl, Functor.map, Except.map] at h
  | or =>
    simp only [decompose, hk, ORNode.decompose] at h
    exact .inr (keepFeasible_error h)
  | atomic => exact .inl rfl

/-! ### With the check the spec describes -/

theorem validateResources_ok_or_conflict (child : TaskNode n) (pool : Dict String Int) :
    validateResources child pool = .ok () ∨
      ∃ e, validateResources child pool = .error e ∧ e.isResourceConflict := by
  unfold validateResources
  split
  · exact .inl rfl
  · exact .inr ⟨_, rfl, rfl⟩

/-- With the spec's check, `ANDNode.decompose` keeps the feasible children as its one option: an
infeasible child is dropped, and only when no child is feasible is there no option. -/
theorem ANDNode.decompose_validateResources (g : TaskGraph n) (self : Fin n)
    (pool : Dict String Int) :
    ANDNode.decompose validateResources g self pool =
      .ok (let kept := (g self).children.filter fun c => (validateResources (g c) pool).toBool
        if kept.isEmpty then [] else [kept]) := by
  rw [ANDNode.decompose, keepFeasible_eq_filter self _
    fun c _ => validateResources_ok_or_conflict (g c) pool]
  simp [Functor.map, Except.map]

/-- With the spec's check, `ORNode.decompose` offers one option per feasible child, in order. -/
theorem ORNode.decompose_validateResources (g : TaskGraph n) (self : Fin n)
    (pool : Dict String Int) :
    ORNode.decompose validateResources g self pool =
      .ok (((g self).children.filter fun c => (validateResources (g c) pool).toBool).map
        fun c => [c]) :=
  keepFeasible_eq_filter self _ fun c _ => validateResources_ok_or_conflict (g c) pool

/-- `ANDNode("ProcessData")` over `AtomicNode("CleanData", resources={"cpu": 1})` and
`AtomicNode("Transform", resources={"cpu": 4})`. -/
def processData : TaskGraph 3 :=
  ![{ TaskNode.init .and "ProcessData" with children := [1, 2] },
    TaskNode.init .atomic "CleanData" [] ⟨[("cpu", 1)], by decide⟩,
    TaskNode.init .atomic "Transform" [] ⟨[("cpu", 4)], by decide⟩]

/-- The pool `{"cpu": 2}`. -/
def twoCpus : Dict String Int := ⟨[("cpu", 2)], by decide⟩

/-- As Python runs it, the `ANDNode` raises `AttributeError` at its first child; with the spec's
check it returns the option `[CleanData]`, dropping the infeasible `Transform`. -/
theorem andDecompose_mixed :
    ANDNode.decompose validateResourcesMissing processData 0 twoCpus =
      .error (.attributeError
        "\x27AtomicNode\x27 object has no attribute \x27validate_resources\x27") ∧
    ANDNode.decompose validateResources processData 0 twoCpus = .ok [[1]] := ⟨rfl, rfl⟩

end Qervan.Planner.Decompose
