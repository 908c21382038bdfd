import Qervan.Planner.PlanErrors
import Qervan.Planner.PlanShape
import Qervan.Planner.Termination

/-! # The cheapest plan the search evaluates, and when there is none

`_ao_star_search` keeps in `best_plan` the cheapest accumulated cost it has evaluated: an option
that evaluates within the risk threshold replaces `best_plan` when its cost
`current_cost + plan.cost` is lower, and otherwise finds `best_plan` already at most that cost. So
over a whole run the plan returned costs the least of the accumulated costs the search evaluates,
and is one of them (`generatePlan_cheapest`).

The first plan comes from the root: while there is no `best_plan`, the heap holds the root or
nothing. So with a `validate_resources` that checks the pool, on a graph `validate_dag` accepts, the
search returns a plan exactly when an option of the root evaluates within the threshold, and raises
`PlanException("No valid plan found within constraints")` otherwise (`generatePlan_outcome`).

* `CostsAtMost`: `best_plan` is set and costs at most a bound. An option tried never raises the
  best cost (`tryOption_improves`), and brings it to the option's cost or below (`tryOption_le`);
  likewise an iteration (`expand_improves`, `expand_le`) and a run (`searchLoop_improves`).
* `searchLoop_of_loopReachable`: every state the loop reaches lies on the run, so a run that
  returns bounds the best cost by every `Candidate` (`searchLoop_candidate_le`).
* `expand_accepts`: an iteration leaves the state, or its `best_plan` is the last option it
  accepted; hence `best_plan` is always a `Candidate` (`loopReachable_bestPlan_candidate`).
* `RootInv`: with no `best_plan` the heap is the initial one or empty, and a `best_plan` means the
  root has an acceptable option. -/

namespace Qervan.Planner.BestPlan

open Relation Qervan.Planner.Model Qervan.Planner.ValidateDag Qervan.Planner.Evaluate
open Qervan.Planner.Decompose Qervan.Planner.Search Qervan.Planner.PlanErrors
open Qervan.Planner.PlanShape Qervan.Planner.Termination

variable {n : Nat}

/-- An accumulated cost the search evaluates: the cost of an entry popped from a state the loop
reaches, plus the cost of an option of the popped node's decomposition that evaluates within the
risk threshold. -/
def Candidate (vr : Validator n) (g : TaskGraph n) (pg : PlanningGraph n) (t : ℚ) : Prop :=
  ∃ st c m rest decs o plan, LoopReachable vr g pg st ∧ heappop st.heap = some ((c, m), rest) ∧
    (g m).isAtomic = false ∧ decompose vr g m pg.resourcePool = .ok decs ∧ o ∈ decs ∧
    evaluateOption g pg.resourcePool o = .ok plan ∧ plan.riskFactor ≤ pg.riskThreshold ∧
    t = c + plan.cost

/-- The root is composite and an option of its decomposition evaluates within the risk
threshold. -/
def RootAcceptable (vr : Validator n) (g : TaskGraph n) (pg : PlanningGraph n) : Prop :=
  (g pg.root).isAtomic = false ∧ ∃ decs o plan,
    decompose vr g pg.root pg.resourcePool = .ok decs ∧ o ∈ decs ∧
    evaluateOption g pg.resourcePool o = .ok plan ∧ plan.riskFactor ≤ pg.riskThreshold

/-- `best_plan` is set and costs at most `t`. -/
def CostsAtMost (best : Option (PlanningResult n)) (t : ℚ) : Prop :=
  ∃ b, best = some b ∧ b.cost ≤ t

variable {vr : Validator n} {g : TaskGraph n} {pg : PlanningGraph n}

/-! ### One option, one iteration -/

theorem acceptOption_bestPlan {st st' : SearchState n} {o : List (Fin n)}
    {plan : PlanningResult n} {t : ℚ} (h : acceptOption g st o plan t = .ok st') :
    st'.bestPlan = some { plan with cost := t } := by
  unfold acceptOption at h
  split at h
  · cases h
  · rename_i last _
    cases hp : heappush g st.heap (t, last) with
    | error e => simp [hp, Functor.map, Except.map] at h
    | ok heap =>
      simp only [hp, Functor.map, Except.map, Except.ok.injEq] at h
      rw [← h]

theorem tryOption_improves {c t : ℚ} {st st' : SearchState n} {o : List (Fin n)}
    (h : tryOption g pg c st o = .ok st') (hb : CostsAtMost st.bestPlan t) :
    CostsAtMost st'.bestPlan t := by
  rcases tryOption_cases h with rfl | ⟨plan, last, -, -, hbest, -, -, rfl⟩
  · exact hb
  · obtain ⟨b, hb, hle⟩ := hb
    rw [hb] at hbest
    exact ⟨_, rfl, (by simpa using hbest : c + plan.cost < b.cost).le.trans hle⟩

/-- An option that evaluates within the threshold leaves `best_plan` at its cost or below: it is
accepted, or the guard found `best_plan` already no dearer. -/
theorem tryOption_le {c : ℚ} {st st' : SearchState n} {o : List (Fin n)} {plan : PlanningResult n}
    (h : tryOption g pg c st o = .ok st') (hev : evaluateOption g pg.resourcePool o = .ok plan)
    (hr : plan.riskFactor ≤ pg.riskThreshold) : CostsAtMost st'.bestPlan (c + plan.cost) := by
  simp only [tryOption, hev, gt_iff_lt, not_lt.mpr hr, if_false] at h
  split_ifs at h with hg
  · exact ⟨_, acceptOption_bestPlan h, le_rfl⟩
  · cases h
    cases hb : st.bestPlan with
    | none => simp [hb] at hg
    | some b => exact ⟨b, rfl, by simpa [hb] using hg⟩

theorem foldlM_tryOption_improves {c t : ℚ} {decs : List (List (Fin n))} {st st' : SearchState n}
    (h : decs.foldlM (tryOption g pg c) st = .ok st') (hb : CostsAtMost st.bestPlan t) :
    CostsAtMost st'.bestPlan t :=
  foldlM_invariant (fun s => CostsAtMost s.bestPlan t) decs st st'
    (fun _ _ _ _ hs ht => tryOption_improves ht hs) hb h

theorem foldlM_tryOption_le {c : ℚ} {o : List (Fin n)} {plan : PlanningResult n}
    (hev : evaluateOption g pg.resourcePool o = .ok plan) (hr : plan.riskFactor ≤ pg.riskThreshold) :
    ∀ {decs : List (List (Fin n))} {st st' : SearchState n}, o ∈ decs →
      decs.foldlM (tryOption g pg c) st = .ok st' → CostsAtMost st'.bestPlan (c + plan.cost)
  | [], _, _, ho, _ => absurd ho (List.not_mem_nil _)
  | d :: ds, st, st', ho, h => by
    rw [List.foldlM_cons] at h
    obtain ⟨s, h1, h2⟩ := bind_eq_ok.mp h
    rcases List.mem_cons.mp ho with rfl | ho
    · exact foldlM_tryOption_improves h2 (tryOption_le h1 hev hr)
    · exact foldlM_tryOption_le hev hr ho h2

theorem expand_improves {c t : ℚ} {m : Fin n} {st st' : SearchState n}
    (h : expand vr g pg c m st = .ok st') (hb : CostsAtMost st.bestPlan t) :
    CostsAtMost st'.bestPlan t := by
  rcases expand_cases h with rfl | ⟨decs, -, -, hf⟩
  · exact hb
  · exact foldlM_tryOption_improves hf hb

theorem expand_le {c : ℚ} {m : Fin n} {st st' : SearchState n} {decs : List (List (Fin n))}
    {o : List (Fin n)} {plan : PlanningResult n} (ha : (g m).isAtomic = false)
    (hd : decompose vr g m pg.resourcePool = .ok decs) (ho : o ∈ decs)
    (hev : evaluateOption g pg.resourcePool o = .ok plan) (hr : plan.riskFactor ≤ pg.riskThreshold)
    (h : expand vr g pg c m st = .ok st') : CostsAtMost st'.bestPlan (c + plan.cost) := by
  simp only [expand, ha, Bool.false_eq_true, if_false, hd, bind_ok_eq] at h
  exact foldlM_tryOption_le hev hr ho h

/-- An iteration leaves the state as it was, or its `best_plan` is the last option it accepted:
one of the popped node's decomposition, evaluated within the threshold. -/
theorem expand_accepts {c : ℚ} {m : Fin n} {st st' : SearchState n}
    (h : expand vr g pg c m st = .ok st') :
    st' = st ∨ ∃ decs o plan, (g m).isAtomic = false ∧
      decompose vr g m pg.resourcePool = .ok decs ∧ o ∈ decs ∧
      evaluateOption g pg.resourcePool o = .ok plan ∧ plan.riskFactor ≤ pg.riskThreshold ∧
      st'.bestPlan = some { plan with cost := c + plan.cost } := by
  rcases expand_cases h with rfl | ⟨decs, ha, hd, hf⟩
  · exact .inl rfl
  · have := foldlM_invariant (fun s => s = st ∨ ∃ o plan, o ∈ decs ∧
        evaluateOption g pg.resourcePool o = .ok plan ∧ plan.riskFactor ≤ pg.riskThreshold ∧
        s.bestPlan = some { plan with cost := c + plan.cost }) decs st st'
      (fun o ho s s' hs ht => ?_) (.inl rfl) hf
    · exact this.imp_right fun ⟨o, plan, ho, hev, hr, hb⟩ => ⟨decs, o, plan, ha, hd, ho, hev, hr, hb⟩
    · rcases tryOption_cases ht with rfl | ⟨plan, last, hev, hr, -, -, -, rfl⟩
      · exact hs
      · exact .inr ⟨o, plan, ho, hev, hr, rfl⟩

/-! ### Runs -/

/-- A run that returns, from a state whose heap pops, goes through the iteration of that pop. -/
theorem searchLoop_pop {k : Nat} {st st_f : SearchState n} {c : ℚ} {m : Fin n}
    {rest : List (ℚ × Fin n)} (h : searchLoop vr g pg (k + 1) st = some (.ok st_f))
    (hp : heappop st.heap = some ((c, m), rest)) :
    ∃ st', expand vr g pg c m ⟨rest, st.bestPlan⟩ = .ok st' ∧
      searchLoop vr g pg k st' = some (.ok st_f) := by
  simp only [searchLoop, hp] at h
  cases he : expand vr g pg c m ⟨rest, st.bestPlan⟩ with
  | error e => simp [he] at h
  | ok st' => simp only [he] at h; exact ⟨st', rfl, h⟩

theorem searchLoop_improves {t : ℚ} :
    ∀ {k : Nat} {st st_f : SearchState n}, searchLoop vr g pg k st = some (.ok st_f) →
      CostsAtMost st.bestPlan t → CostsAtMost st_f.bestPlan t
  | 0, _, _, h, _ => by simp [searchLoop] at h
  | k + 1, st, st_f, h, hb => by
    cases hp : heappop st.heap with
    | none =>
      simp only [searchLoop, hp, Option.some.injEq, Except.ok.injEq] at h
      exact h ▸ hb
    | some x =>
      obtain ⟨⟨c, m⟩, rest⟩ := x
      obtain ⟨st', he, hk⟩ := searchLoop_pop h hp
      exact searchLoop_improves hk (expand_improves he hb)

/-- **Every reachable state lies on the run.** The loop is deterministic, so a run from the
initial state that returns passes through every state the loop reaches. -/
theorem searchLoop_of_loopReachable {fuel : Nat} {st st_f : SearchState n}
    (h : searchLoop vr g pg fuel (initState pg) = some (.ok st_f))
    (hst : LoopReachable vr g pg st) : ∃ k, searchLoop vr g pg k st = some (.ok st_f) := by
  induction hst with
  | init => exact ⟨fuel, h⟩
  | step _ hp he ih =>
    obtain ⟨k, hk⟩ := ih
    cases k with
    | zero => simp [searchLoop] at hk
    | succ k =>
      obtain ⟨st', he', hk'⟩ := searchLoop_pop hk hp
      rw [he] at he'
      cases he'
      exact ⟨k, hk'⟩

/-- A run that returns leaves `best_plan` at most every accumulated cost of its first iteration
that evaluates within the threshold. -/
theorem searchLoop_candidate_le {k : Nat} {st st_f : SearchState n} {c : ℚ} {m : Fin n}
    {rest : List (ℚ × Fin n)} {decs : List (List (Fin n))} {o : List (Fin n)}
    {plan : PlanningResult n} (h : searchLoop vr g pg k st = some (.ok st_f))
    (hp : heappop st.heap = some ((c, m), rest)) (ha : (g m).isAtomic = false)
    (hd : decompose vr g m pg.resourcePool = .ok decs) (ho : o ∈ decs)
    (hev : evaluateOption g pg.resourcePool o = .ok plan) (hr : plan.riskFactor ≤ pg.riskThreshold) :
    CostsAtMost st_f.bestPlan (c + plan.cost) := by
  cases k with
  | zero => simp [searchLoop] at h
  | succ k =>
    obtain ⟨st', he, hk⟩ := searchLoop_pop h hp
    exact searchLoop_improves hk (expand_le ha hd ho hev hr he)

theorem loopReachable_bestPlan_candidate {st : SearchState n} {b : PlanningResult n}
    (hst : LoopReachable vr g pg st) (hb : st.bestPlan = some b) : Candidate vr g pg b.cost := by
  induction hst generalizing b with
  | init => simp [initState] at hb
  | step hst hp he ih =>
    rcases expand_accepts he with rfl | ⟨decs, o, plan, ha, hd, ho, hev, hr, hb'⟩
    · exact ih hb
    · rw [hb'] at hb
      cases hb
      exact ⟨_, _, _, _, decs, o, plan, hst, hp, ha, hd, ho, hev, hr, rfl⟩

theorem aoStarSearch_eq_ok {fuel : Nat} {p : PlanningResult n}
    (h : aoStarSearch vr g pg fuel = some (.ok p)) :
    ∃ st_f, searchLoop vr g pg fuel (initState pg) = some (.ok st_f) ∧ st_f.bestPlan = some p := by
  unfold aoStarSearch at h
  cases hl : searchLoop vr g pg fuel (initState pg) with
  | none => simp [hl] at h
  | some r =>
    cases r with
    | error e => simp [hl, Except.bind] at h
    | ok st_f =>
      refine ⟨st_f, rfl, ?_⟩
      cases hb : st_f.bestPlan <;> simp_all [Except.bind]

/-- **The returned plan is the cheapest one evaluated.** Whatever `validate_resources` does, the
plan `generate_plan` returns costs the least of the accumulated costs `current_cost + plan.cost`
of the options, of every node the search pops, that evaluate within the risk threshold; and its
cost is one of them. -/
theorem generatePlan_cheapest {fuel : Nat} {p : PlanningResult n}
    (h : generatePlan vr g pg fuel = some (.ok p)) : IsLeast {t | Candidate vr g pg t} p.cost := by
  obtain ⟨st_f, hl, hb⟩ := aoStarSearch_eq_ok (generatePlan_ok h).2
  obtain ⟨st, hst, hbest⟩ := aoStarSearch_ok (generatePlan_ok h).2
  refine ⟨loopReachable_bestPlan_candidate hst hbest, ?_⟩
  rintro t ⟨st, c, m, rest, decs, o, plan, hst, hp, ha, hd, ho, hev, hr, rfl⟩
  obtain ⟨k, hk⟩ := searchLoop_of_loopReachable hl hst
  obtain ⟨b, hb', hle⟩ := searchLoop_candidate_le hk hp ha hd ho hev hr
  rw [hb] at hb'
  cases hb'
  exact hle

/-- On the two alternatives of `__main__`, the search evaluates `[SensorData]` at `50` and returns
`[APIIngest]`, at `30`, the least. -/
theorem generatePlan_acquireData_cheapest :
    generatePlan validateResources acquireData acquirePlanning 4 = some (.ok apiPlan) ∧
      IsLeast {t | Candidate validateResources acquireData acquirePlanning t} apiPlan.cost ∧
      Candidate validateResources acquireData acquirePlanning 50 :=
  ⟨generatePlan_acquireData, generatePlan_cheapest generatePlan_acquireData,
    ⟨initState acquirePlanning, 0, 0, [], [[1], [2]], [1],
      ⟨[1], ⟨[("cpu", 1), ("memory", 2048)], by decide⟩, 0 + 50, max 0 (1 / 5)⟩,
      .init, rfl, rfl, rfl, by simp, rfl, by norm_num [acquirePlanning], by norm_num⟩⟩

/-! ### When the search gives up -/

/-- The search's invariant about the root: with no `best_plan` the heap is the initial one or
empty, and a `best_plan` means the root has an acceptable option. -/
structure RootInv (vr : Validator n) (g : TaskGraph n) (pg : PlanningGraph n)
    (st : SearchState n) : Prop where
  fresh : st.bestPlan = none → st = initState pg ∨ st.heap = []
  root : ∀ b, st.bestPlan = some b → RootAcceptable vr g pg

theorem heappop_initState {c : ℚ} {m : Fin n} {rest : List (ℚ × Fin n)}
    (hp : heappop (initState pg).heap = some ((c, m), rest)) : c = 0 ∧ m = pg.root ∧ rest = [] := by
  simp only [initState, heappop, Option.some.injEq, Prod.mk.injEq] at hp
  exact ⟨hp.1.1.symm, hp.1.2.symm, hp.2.symm⟩

/-- With no `best_plan`, the heap pops only the initial entry. -/
theorem RootInv.pop_fresh {st : SearchState n} {c : ℚ} {m : Fin n} {rest : List (ℚ × Fin n)}
    (hinv : RootInv vr g pg st) (hb : st.bestPlan = none)
    (hp : heappop st.heap = some ((c, m), rest)) : m = pg.root ∧ rest = [] := by
  rcases hinv.fresh hb with rfl | h0
  · exact (heappop_initState hp).2
  · simp [h0, heappop] at hp

theorem loopReachable_rootInv {st : SearchState n} (hst : LoopReachable vr g pg st) :
    RootInv vr g pg st := by
  induction hst with
  | init => exact ⟨fun _ => .inl rfl, by simp [initState]⟩
  | @step st st' c m rest _ hp he ih =>
    rcases expand_accepts he with rfl | ⟨decs, o, plan, ha, hd, ho, hev, hr, hb⟩
    · exact ⟨fun hb => .inr (ih.pop_fresh hb hp).2, ih.root⟩
    · refine ⟨fun h => by simp [hb] at h, fun _ _ => ?_⟩
      cases hbest : st.bestPlan with
      | some b => exact ih.root b hbest
      | none =>
        obtain ⟨rfl, -⟩ := ih.pop_fresh hbest hp
        exact ⟨ha, decs, o, plan, hd, ho, hev, hr⟩

/-- **When the search gives up.** With a `validate_resources` that raises only
`ResourceConflictError` and passes only children that need nothing the pool does not list, on a
graph `validate_dag` accepts, `generate_plan` settles, from some fuel on, on one answer: a plan
when an option of the root evaluates within the risk threshold, and otherwise
`PlanException("No valid plan found within constraints")`. -/
theorem generatePlan_outcome (hvr : ChecksPool vr) (hdag : validateDag g pg.root = .ok ()) :
    ∃ B r, (∀ fuel, generatePlan vr g pg (B + fuel) = some r) ∧
      (RootAcceptable vr g pg → ∃ p, r = .ok p) ∧
      (¬ RootAcceptable vr g pg →
        r = .error (.planException "No valid plan found within constraints")) := by
  obtain ⟨B, r, hB⟩ : ∃ B r, searchLoop vr g pg B (initState pg) = some r :=
    searchLoop_terminates (not_cycleReachable_of_validateDag hdag) (initState pg)
      (by simp [initState, ReflTransGen.refl])
  rcases searchLoop_cases .init hB with ⟨st_f, rfl, hst, -⟩ | ⟨st, c, m, rest, e, -, hst, hp, he⟩
  · have hrun : ∀ fuel, generatePlan vr g pg (B + fuel) =
        some ((Except.ok st_f).bind fun st => match st.bestPlan with
          | none => .error (.planException "No valid plan found within constraints")
          | some best => .ok best) := fun fuel => by
      rw [generatePlan, hdag, aoStarSearch, searchLoop_add_fuel hB]
      rfl
    cases hb : st_f.bestPlan with
    | none =>
      refine ⟨B, _, hrun, fun ⟨ha, decs, o, plan, hd, ho, hev, hr⟩ => ?_, fun _ => by simp [hb, Except.bind]⟩
      obtain ⟨b, hb', -⟩ := searchLoop_candidate_le hB rfl ha hd ho hev hr
      simp [hb] at hb'
    | some b =>
      exact ⟨B, _, hrun, fun _ => ⟨b, by simp [hb, Except.bind]⟩,
        fun hno => absurd ((loopReachable_rootInv hst).root b hb) hno⟩
  · exact absurd he (expand_ne_error hvr hst hp e)

theorem generatePlan_mission_outcome :
    ChecksPool (validateResources : Validator 3) ∧
      validateDag mission missionPlanning.root = .ok () ∧
      ∃ B r, (∀ fuel, generatePlan validateResources mission missionPlanning (B + fuel) = some r) ∧
        (RootAcceptable validateResources mission missionPlanning → ∃ p, r = .ok p) ∧
        (¬ RootAcceptable validateResources mission missionPlanning →
          r = .error (.planException "No valid plan found within constraints")) :=
  have hdag : validateDag mission missionPlanning.root = .ok () :=
    validateDag_ok_of_not_cycleReachable (not_cycleReachable_of_lt (by unfold ChildEdge; decide) 0)
  ⟨validateResources_checksPool, hdag, generatePlan_outcome validateResources_checksPool hdag⟩

end Qervan.Planner.BestPlan
