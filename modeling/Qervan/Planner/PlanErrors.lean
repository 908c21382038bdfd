import Qervan.Planner.HeapOrder

/-! # What `generate_plan` raises

`generate_plan` lets every exception of the search escape. No class of `planner.py` defines
`validate_resources`, so the first child a `decompose` looks at raises `AttributeError`, which is
not a `PlanException`: a composite root with a child never gets past its first iteration
(`generatePlan_raises_attributeError`). On every graph the planner as shipped answers within two
iterations, never with a plan (`generatePlan_validateResourcesMissing`).

The missing method is the only way out for a foreign exception. Let `validate_resources` raise only
`ResourceConflictError` and pass only children that need nothing of a resource the pool does not
list, as the spec's check does (`ChecksPool`, `validateResources_checksPool`). Then no iteration
from a reachable state raises (`expand_ne_error`): `decompose` catches the conflicts, an option is
never empty, `_evaluate_option` raises `KeyError` only for a resource some node of the option needs
and the pool does not list (`evaluateOption_keyError_cases`), and the heap order rules out the
`TypeError` of a cost tie. What escapes `generate_plan` is then the `CircularDependencyError` of
`validate_dag` or the generic `PlanException` (`generatePlan_error_of_checksPool`). -/

namespace Qervan.Planner.PlanErrors

open Qervan.Planner.Model Qervan.Planner.ValidateDag Qervan.Planner.Evaluate
open Qervan.Planner.Decompose Qervan.Planner.Search Qervan.Planner.HeapOrder

variable {n : Nat}

/-! ### The missing `validate_resources` -/

/-- `ORNode("Route")` over `AtomicNode("Drive")`. -/
def route : TaskGraph 2 :=
  ![{ TaskNode.init .or "Route" with children := [1] }, TaskNode.init .atomic "Drive"]

/-- `PlanningGraph(route, {})`, at the default threshold `0.7`. -/
def routePlanning : PlanningGraph 2 := { root := 0, resourcePool := Dict.empty }

/-- As Python runs it, `generate_plan` on `route` raises the `AttributeError` of the missing
`validate_resources` in its first iteration, whatever the fuel after it. -/
theorem generatePlan_raises_attributeError (fuel : Nat) :
    generatePlan validateResourcesMissing route routePlanning (fuel + 1) =
      some (.error (.attributeError
        "\x27AtomicNode\x27 object has no attribute \x27validate_resources\x27")) := by
  have hdag : validateDag route 0 = .ok () :=
    validateDag_ok_of_not_cycleReachable (not_cycleReachable_of_lt (by unfold ChildEdge; decide) 0)
  simp only [generatePlan, routePlanning, hdag]
  rfl

/-- Without `validate_resources`, the loop of `decompose` raises at the first child, if any. -/
theorem keepFeasible_validateResourcesMissing {α : Type} (g : TaskGraph n) (self : Fin n)
    (pool : Dict String Int) (wrap : Fin n → α) :
    keepFeasible validateResourcesMissing g self pool wrap =
      match (g self).children with
      | [] => .ok []
      | c :: _ => .error (.attributeError ("\x27" ++ (g c).kind.className ++
          "\x27 object has no attribute \x27validate_resources\x27")) := by
  unfold keepFeasible
  cases (g self).children <;> rfl

/-- Without `validate_resources`, an iteration at a composite node with a child raises at its
first child; any other iteration changes nothing. -/
theorem expand_validateResourcesMissing (g : TaskGraph n) (pg : PlanningGraph n) (c : ℚ)
    (m : Fin n) (st : SearchState n) :
    expand validateResourcesMissing g pg c m st =
      if (g m).isAtomic then .ok st
      else match (g m).children with
        | [] => .ok st
        | child :: _ => .error (.attributeError ("\x27" ++ (g child).kind.className ++
            "\x27 object has no attribute \x27validate_resources\x27")) := by
  unfold expand
  split
  · rfl
  · simp only [decompose, ANDNode.decompose, ORNode.decompose,
      keepFeasible_validateResourcesMissing]
    cases hc : (g m).children <;> cases hk : (g m).kind <;>
      simp_all [TaskNode.isAtomic, Functor.map, Except.map, bind, Except.bind, pure, Except.pure]

/-- **The planner as shipped.** On every graph, `generate_plan` answers within two iterations of
the search, and never with a plan: it re-raises the error of `validate_dag`; or, the root being
atomic or childless, it raises `PlanException("No valid plan found within constraints")`; or it
raises the `AttributeError` of the missing `validate_resources` on the root's first child. -/
theorem generatePlan_validateResourcesMissing (g : TaskGraph n) (pg : PlanningGraph n)
    (fuel : Nat) :
    generatePlan validateResourcesMissing g pg (fuel + 2) =
      some (match validateDag g pg.root with
        | .error e => .error e
        | .ok () =>
          if (g pg.root).isAtomic then .error (.planException "No valid plan found within constraints")
          else match (g pg.root).children with
            | [] => .error (.planException "No valid plan found within constraints")
            | c :: _ => .error (.attributeError ("\x27" ++ (g c).kind.className ++
                "\x27 object has no attribute \x27validate_resources\x27"))) := by
  unfold generatePlan
  cases validateDag g pg.root with
  | error e => rfl
  | ok u =>
    simp only [aoStarSearch, searchLoop, initState, heappop, expand_validateResourcesMissing]
    by_cases ha : (g pg.root).isAtomic
    · simp only [ha, if_true]; rfl
    · simp only [ha]
      cases (g pg.root).children <;> rfl

/-! ### A `validate_resources` that checks the pool -/

/-- What the search needs of `validate_resources`: it raises only `ResourceConflictError`, and it
passes a child only if the child needs nothing positive of a resource the pool does not list. -/
structure ChecksPool (vr : Validator n) : Prop where
  conflict : ∀ t pool e, vr t pool = .error e → e.isResourceConflict = true
  unlisted : ∀ t pool, vr t pool = .ok () → ∀ r, pool.get? r = none → t.resources.get r 0 ≤ 0

theorem validateResources_checksPool : ChecksPool (validateResources : Validator n) := by
  refine ⟨fun t pool e h => ?_, fun t pool h r hr => ?_⟩
  · rcases validateResources_ok_or_conflict t pool with h' | ⟨e', h', hc⟩
    · rw [h'] at h; cases h
    · rw [h'] at h; cases h; exact hc
  · unfold validateResources at h
    split at h
    · rename_i hfind
      cases hget : t.resources.get? r with
      | none => simp [Dict.get_of_get?_eq_none hget]
      | some a =>
        have hnot := List.find?_eq_none.mp hfind _ (Dict.mem_of_get? hget)
        rw [Dict.get_eq_of_get? hget, ← Dict.get_of_get?_eq_none hr 0]
        simpa using hnot
    · cases h

variable {vr : Validator n} {g : TaskGraph n} {pg : PlanningGraph n}

/-- **No iteration raises.** With a `validate_resources` that checks the pool, the iteration that
pops an entry of a reachable state returns normally. -/
theorem expand_ne_error (hvr : ChecksPool vr) {st : SearchState n} {c : ℚ} {m : Fin n}
    {rest : List (ℚ × Fin n)} (hst : LoopReachable vr g pg st)
    (hp : heappop st.heap = some ((c, m), rest)) (e : PlanError) :
    expand vr g pg c m ⟨rest, st.bestPlan⟩ ≠ .error e := by
  intro he
  unfold expand at he
  split_ifs at he with ha
  rcases bind_eq_error.mp he with hd | ⟨decs, hd, hf⟩
  · rcases decompose_error hd with hk | ⟨x, hx, hc⟩
    · simp [TaskNode.isAtomic, hk] at ha
    · simp [hvr.conflict _ _ _ hx] at hc
  obtain ⟨o, ho, s, hs, ht⟩ := foldlM_error_of_invariant ExpandOrdered decs _ e
    (fun _ _ _ _ hx hstep => hx.tryOption hstep) ((loopReachable_ordered hst).pop hp).2 hf
  obtain ⟨-, hne, -, hpass, -⟩ := decompose_option hd ho
  rcases tryOption_error ht with ⟨hev, hc⟩ | rfl | ⟨plan, last, -, hguard, hpush⟩
  · rcases evaluateOption_error hev with ⟨msg, rfl⟩ | ⟨r, rfl, hr⟩
    · simp [PlanError.isResourceConflict] at hc
    · obtain ⟨-, x, hx, hpos⟩ := evaluateOption_keyError_cases hev
      exact absurd (hvr.unlisted _ _ (hpass x hx) r hr) (not_le.mpr hpos)
  · exact hne rfl
  · have hlt : ∀ x ∈ s.heap, (c + plan.cost, last).1 < x.1 := hs.lt_of_guard hguard
    rw [heappush_of_lt hlt] at hpush
    cases hpush

/-- **Only `PlanException`s escape.** With a `validate_resources` that checks the pool, every
exception `generate_plan` raises is the `CircularDependencyError` of `validate_dag` or the generic
`PlanException("No valid plan found within constraints")`. -/
theorem generatePlan_error_of_checksPool (hvr : ChecksPool vr) {fuel : Nat} {e : PlanError}
    (h : generatePlan vr g pg fuel = some (.error e)) :
    (∃ msg, e = .circularDependencyError msg) ∨
      e = .planException "No valid plan found within constraints" := by
  unfold generatePlan at h
  split at h
  · rename_i e' hv
    cases h
    obtain ⟨x, -, -, rfl⟩ := validateDag_error hv
    exact .inl ⟨_, rfl⟩
  · rcases aoStarSearch_error h with ⟨-, -, -, rfl⟩ | ⟨st, c, m, rest, hst, hp, he⟩
    · exact .inr rfl
    · exact absurd he (expand_ne_error hvr hst hp e)

/-- `ORNode("Route")`, with no children. -/
def bareRoute : TaskGraph 1 := fun _ => TaskNode.init .or "Route"

/-- `PlanningGraph(bare_route, {})`, at the default threshold `0.7`. -/
def bareRoutePlanning : PlanningGraph 1 := { root := 0, resourcePool := Dict.empty }

/-- A root with no option: the search gives up with the generic `PlanException`. -/
theorem generatePlan_bareRoute_error :
    ChecksPool (validateResources : Validator 1) ∧
      generatePlan validateResources bareRoute bareRoutePlanning 2 =
        some (.error (.planException "No valid plan found within constraints")) ∧
      ((∃ msg, PlanError.planException "No valid plan found within constraints" =
          .circularDependencyError msg) ∨
        PlanError.planException "No valid plan found within constraints" =
          .planException "No valid plan found within constraints") :=
  have hdag : validateDag bareRoute 0 = .ok () :=
    validateDag_ok_of_not_cycleReachable (not_cycleReachable_of_lt (by unfold ChildEdge; decide) 0)
  have h : generatePlan validateResources bareRoute bareRoutePlanning 2 =
      some (.error (.planException "No valid plan found within constraints")) := by
    simp only [generatePlan, bareRoutePlanning, hdag]
    rfl
  ⟨validateResources_checksPool, h, generatePlan_error_of_checksPool validateResources_checksPool h⟩

end Qervan.Planner.PlanErrors
