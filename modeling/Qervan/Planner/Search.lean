import Qervan.Planner.ValidateDag
import Qervan.Planner.Evaluate
import Qervan.Planner.Decompose

/-! # `_ao_star_search` and `generate_plan`

The search keeps a `heapq` list of `(cost, node)` entries and a `best_plan`. Each iteration pops a
least-cost entry, skips an atomic node, and otherwise tries every option of `decompose`: an option
that evaluates without `ResourceConflictError`, within the risk threshold, and whose accumulated
cost `current_cost + plan.cost` is below `best_plan.cost` (or with no `best_plan` yet) becomes the
best plan, and its last node is pushed at that cost.

`heapq` is modelled by the multiset of its entries: `heappop` answers a least one, `heappush` adds
one, and raises the `TypeError` of comparing two `TaskNode`s when the new cost ties with a queued
one of another node (where `heapq` compares along its sift path only). The loop runs on a fuel (`searchLoop`), since it need not stop on a graph with
a cycle.

* `tryOption_cases`, `expand_cases`: what one option and one iteration can do;
* `LoopReachable`: the states at the head of the loop; `searchLoop_cases` reduces a whole run to
  its reachable states and the iteration that raised, `aoStarSearch_ok`, `aoStarSearch_error` and
  `generatePlan_ok` read off the answer. -/

namespace Qervan.Planner.Search

open Qervan.Planner.Model Qervan.Planner.ValidateDag Qervan.Planner.Evaluate
open Qervan.Planner.Decompose

variable {n : Nat}

/-- A `PlanningGraph`: the root, its copy of the resource pool and the risk threshold (the `_cache`
it also builds is never read). -/
structure PlanningGraph (n : Nat) where
  root : Fin n
  resourcePool : Dict String Int
  riskThreshold : ℚ := 7 / 10

/-- The locals of `_ao_star_search` at the head of `while heap`. -/
structure SearchState (n : Nat) where
  heap : List (ℚ × Fin n)
  bestPlan : Option (PlanningResult n)

/-! ### `heapq` -/

/-- `heapq.heappop`: a least-cost entry, and the other entries. -/
def heappop : List (ℚ × Fin n) → Option ((ℚ × Fin n) × List (ℚ × Fin n))
  | [] => none
  | e :: es =>
    match heappop es with
    | none => some (e, [])
    | some (m, rest) => if m.1 < e.1 then some (m, e :: rest) else some (e, es)

/-- `heapq.heappush`. Tuples are compared element by element, so two entries of equal cost compare
their nodes, and `TaskNode` defines no order. `heapq` compares the new entry only with the entries
on its sift path; the model raises on a tie with any queued entry of another node, so it raises on
more heaps than `heapq`. The search builds no heap with a tie (`search_pushes_below_queue`), so on
its heaps the two agree. -/
def heappush (g : TaskGraph n) (heap : List (ℚ × Fin n)) (e : ℚ × Fin n) :
    Except PlanError (List (ℚ × Fin n)) :=
  match heap.find? fun x => x.1 = e.1 ∧ x.2 ≠ e.2 with
  | none => .ok (e :: heap)
  | some x => .error (.typeError ("\x27<\x27 not supported between instances of \x27" ++
      (g e.2).kind.className ++ "\x27 and \x27" ++ (g x.2).kind.className ++ "\x27"))

/-! ### The search -/

/-- An accepted option: the plan becomes `best_plan` at the accumulated cost `totalCost`, and
`option[-1]` is pushed at that cost. -/
def acceptOption (g : TaskGraph n) (st : SearchState n) (option : List (Fin n))
    (plan : PlanningResult n) (totalCost : ℚ) : Except PlanError (SearchState n) :=
  match option.getLast? with
  | none => .error (.indexError "list index out of range")
  | some last => (fun heap => ⟨heap, some { plan with cost := totalCost }⟩) <$>
      heappush g st.heap (totalCost, last)

/-- One iteration of `for option in decompositions`, at the popped cost `currentCost`:
`total_cost = current_cost + plan.cost` is accepted when `not best_plan or total_cost <
best_plan.cost`. -/
def tryOption (g : TaskGraph n) (pg : PlanningGraph n) (currentCost : ℚ) (st : SearchState n)
    (option : List (Fin n)) : Except PlanError (SearchState n) :=
  match evaluateOption g pg.resourcePool option with
  | .error e => if e.isResourceConflict then .ok st else .error e
  | .ok plan =>
    if plan.riskFactor > pg.riskThreshold then .ok st
    else if st.bestPlan.all fun best => currentCost + plan.cost < best.cost then
      acceptOption g st option plan (currentCost + plan.cost)
    else .ok st

/-- The body of `while heap` after the pop of `(currentCost, currentNode)`. -/
def expand (vr : Validator n) (g : TaskGraph n) (pg : PlanningGraph n) (currentCost : ℚ)
    (currentNode : Fin n) (st : SearchState n) : Except PlanError (SearchState n) :=
  if (g currentNode).isAtomic then .ok st
  else do
    let decompositions ← decompose vr g currentNode pg.resourcePool
    decompositions.foldlM (tryOption g pg currentCost) st

/-- `while heap:`, for at most `fuel` iterations; `none` when the fuel runs out. -/
def searchLoop (vr : Validator n) (g : TaskGraph n) (pg : PlanningGraph n) :
    Nat → SearchState n → Option (Except PlanError (SearchState n))
  | 0, _ => none
  | fuel + 1, st =>
    match heappop st.heap with
    | none => some (.ok st)
    | some ((currentCost, currentNode), heap) =>
      match expand vr g pg currentCost currentNode ⟨heap, st.bestPlan⟩ with
      | .error e => some (.error e)
      | .ok st' => searchLoop vr g pg fuel st'

/-- The state `_ao_star_search` starts from: `heappush(heap, (0, self.root))` on an empty heap. -/
def initState (pg : PlanningGraph n) : SearchState n := ⟨[(0, pg.root)], none⟩

/-- `_ao_star_search()`. -/
def aoStarSearch (vr : Validator n) (g : TaskGraph n) (pg : PlanningGraph n) (fuel : Nat) :
    Option (Except PlanError (PlanningResult n)) :=
  (searchLoop vr g pg fuel (initState pg)).map fun r => r.bind fun st =>
    match st.bestPlan with
    | none => .error (.planException "No valid plan found within constraints")
    | some best => .ok best

/-- `generate_plan()`: `validate_dag` on the root, then the search; a `CircularDependencyError`
is logged and re-raised. -/
def generatePlan (vr : Validator n) (g : TaskGraph n) (pg : PlanningGraph n) (fuel : Nat) :
    Option (Except PlanError (PlanningResult n)) :=
  match validateDag g pg.root with
  | .error e => some (.error e)
  | .ok () => aoStarSearch vr g pg fuel

/-! ### `heapq` lemmas -/

theorem heappop_eq_none {h : List (ℚ × Fin n)} : heappop h = none ↔ h = [] := by
  cases h with
  | nil => simp [heappop]
  | cons e es => simp only [heappop]; split <;> [simp; split <;> simp]

theorem heappop_perm : ∀ {h : List (ℚ × Fin n)} {e : ℚ × Fin n} {rest : List (ℚ × Fin n)},
    heappop h = some (e, rest) → h.Perm (e :: rest)
  | [], _, _, hp => by simp [heappop] at hp
  | x :: es, e, rest, hp => by
    simp only [heappop] at hp
    split at hp
    · rename_i hn
      obtain ⟨rfl, rfl⟩ := Prod.mk.inj (Option.some.inj hp)
      simp [heappop_eq_none.mp hn]
    · rename_i m r hm
      split_ifs at hp
      · obtain ⟨rfl, rfl⟩ := Prod.mk.inj (Option.some.inj hp)
        exact ((heappop_perm hm).cons x).trans (List.Perm.swap _ _ _)
      · obtain ⟨rfl, rfl⟩ := Prod.mk.inj (Option.some.inj hp)
        exact List.Perm.refl _

/-- On a list whose costs increase, the least entry is the head. -/
theorem heappop_of_sorted : ∀ {e : ℚ × Fin n} {es : List (ℚ × Fin n)},
    (e :: es).Pairwise (fun a b => a.1 < b.1) → heappop (e :: es) = some (e, es)
  | e, [], _ => rfl
  | e, x :: es, hs => by
    have ih := heappop_of_sorted (List.Pairwise.of_cons hs)
    have hlt : e.1 < x.1 := List.rel_of_pairwise_cons hs (List.mem_cons_self _ _)
    have hunfold : heappop (e :: x :: es) = match heappop (x :: es) with
      | none => some (e, [])
      | some (m, rest) => if m.1 < e.1 then some (m, e :: rest) else some (e, x :: es) := rfl
    rw [hunfold, ih]
    simp [not_lt.mpr hlt.le]

theorem heappush_ok {g : TaskGraph n} {heap heap' : List (ℚ × Fin n)} {e : ℚ × Fin n}
    (h : heappush g heap e = .ok heap') : heap' = e :: heap := by
  unfold heappush at h
  split at h <;> cases h
  rfl

theorem heappush_of_lt {g : TaskGraph n} {heap : List (ℚ × Fin n)} {e : ℚ × Fin n}
    (h : ∀ x ∈ heap, e.1 < x.1) : heappush g heap e = .ok (e :: heap) := by
  unfold heappush
  rw [List.find?_eq_none.mpr fun x hx => by simp [(h x hx).ne']]

/-! ### One option, one iteration -/

variable {vr : Validator n} {g : TaskGraph n} {pg : PlanningGraph n}

/-- **What one option does.** It leaves the state as it was, or it is accepted: it evaluates,
within the threshold and below the best plan's cost, and its last node is pushed at the
accumulated cost, which becomes the best plan's. -/
theorem tryOption_cases {c : ℚ} {st st' : SearchState n} {o : List (Fin n)}
    (h : tryOption g pg c st o = .ok st') :
    st' = st ∨ ∃ plan last, evaluateOption g pg.resourcePool o = .ok plan ∧
      plan.riskFactor ≤ pg.riskThreshold ∧
      (st.bestPlan.all fun best => c + plan.cost < best.cost) ∧ o.getLast? = some last ∧
      heappush g st.heap (c + plan.cost, last) = .ok ((c + plan.cost, last) :: st.heap) ∧
      st' = ⟨(c + plan.cost, last) :: st.heap, some { plan with cost := c + plan.cost }⟩ := by
  cases hev : evaluateOption g pg.resourcePool o with
  | error e =>
    simp only [tryOption, hev] at h
    split_ifs at h
    cases h
    exact .inl rfl
  | ok plan =>
    simp only [tryOption, hev] at h
    split_ifs at h with hrisk hbest
    · cases h; exact .inl rfl
    · unfold acceptOption at h
      cases hlast : o.getLast? with
      | none => simp [hlast] at h
      | some last =>
        cases hpush : heappush g st.heap (c + plan.cost, last) with
        | error e => simp [hlast, hpush, Functor.map, Except.map] at h
        | ok heap =>
          simp only [hlast, hpush, Functor.map, Except.map, Except.ok.injEq] at h
          obtain rfl := heappush_ok hpush
          exact .inr ⟨plan, last, rfl, not_lt.mp hrisk, hbest, rfl, hpush, h.symm⟩
    · cases h; exact .inl rfl

/-- What one option raises: an error of the evaluator other than `ResourceConflictError`, the
`IndexError` of an empty option, or the `TypeError` of a cost tie. -/
theorem tryOption_error {c : ℚ} {st : SearchState n} {o : List (Fin n)} {e : PlanError}
    (h : tryOption g pg c st o = .error e) :
    (evaluateOption g pg.resourcePool o = .error e ∧ e.isResourceConflict = false) ∨
      o = [] ∨ ∃ (plan : PlanningResult n) (last : Fin n), o.getLast? = some last ∧
        (st.bestPlan.all fun best => c + plan.cost < best.cost) ∧
        heappush g st.heap (c + plan.cost, last) = .error e := by
  cases hev : evaluateOption g pg.resourcePool o with
  | error e' =>
    simp only [tryOption, hev] at h
    split_ifs at h with hr
    cases h
    exact .inl ⟨rfl, by simpa using hr⟩
  | ok plan =>
    simp only [tryOption, hev] at h
    split_ifs at h with hrisk hbest
    unfold acceptOption at h
    cases hlast : o.getLast? with
    | none => exact .inr (.inl (List.getLast?_eq_none_iff.mp hlast))
    | some last =>
      cases hpush : heappush g st.heap (c + plan.cost, last) with
      | error e' =>
        simp only [hlast, hpush, Functor.map, Except.map, Except.error.injEq] at h
        exact .inr (.inr ⟨plan, last, rfl, hbest, h ▸ hpush⟩)
      | ok heap => simp [hlast, hpush, Functor.map, Except.map] at h

/-- **What one iteration does.** An atomic node is skipped; otherwise the node is decomposed and
its options are tried in turn. -/
theorem expand_cases {c : ℚ} {m : Fin n} {st st' : SearchState n}
    (h : expand vr g pg c m st = .ok st') :
    st' = st ∨ ∃ decs, (g m).isAtomic = false ∧ decompose vr g m pg.resourcePool = .ok decs ∧
      decs.foldlM (tryOption g pg c) st = .ok st' := by
  unfold expand at h
  split_ifs at h with ha
  · cases h; exact .inl rfl
  · obtain ⟨decs, hd, hf⟩ := bind_eq_ok.mp h
    exact .inr ⟨decs, by simpa using ha, hd, hf⟩

/-! ### Runs -/

/-- The states at the head of `while heap`: the start, and what each iteration leaves. -/
inductive LoopReachable (vr : Validator n) (g : TaskGraph n) (pg : PlanningGraph n) :
    SearchState n → Prop
  | init : LoopReachable vr g pg (initState pg)
  | step {st st' : SearchState n} {c : ℚ} {m : Fin n} {rest : List (ℚ × Fin n)} :
      LoopReachable vr g pg st → heappop st.heap = some ((c, m), rest) →
      expand vr g pg c m ⟨rest, st.bestPlan⟩ = .ok st' → LoopReachable vr g pg st'

/-- The states at which an option is tried: after a pop from a reachable state, and after each
option tried. -/
inductive OptionReachable (vr : Validator n) (g : TaskGraph n) (pg : PlanningGraph n) :
    ℚ → SearchState n → Prop
  | start {st : SearchState n} {c : ℚ} {m : Fin n} {rest : List (ℚ × Fin n)} :
      LoopReachable vr g pg st → heappop st.heap = some ((c, m), rest) →
      OptionReachable vr g pg c ⟨rest, st.bestPlan⟩
  | next {c : ℚ} {st st' : SearchState n} {o : List (Fin n)} :
      OptionReachable vr g pg c st → tryOption g pg c st o = .ok st' → OptionReachable vr g pg c st'

/-- **A run.** It ends at a reachable state with an empty heap, or raises in the iteration that
starts at a reachable state. -/
theorem searchLoop_cases :
    ∀ {fuel : Nat} {st : SearchState n} {r : Except PlanError (SearchState n)},
    LoopReachable vr g pg st → searchLoop vr g pg fuel st = some r →
    (∃ st', r = .ok st' ∧ LoopReachable vr g pg st' ∧ st'.heap = []) ∨
    ∃ st' c m rest e, r = .error e ∧ LoopReachable vr g pg st' ∧
      heappop st'.heap = some ((c, m), rest) ∧ expand vr g pg c m ⟨rest, st'.bestPlan⟩ = .error e
  | 0, _, _, _, h => by simp [searchLoop] at h
  | fuel + 1, st, r, hst, h => by
    simp only [searchLoop] at h
    cases hp : heappop st.heap with
    | none =>
      simp only [hp, Option.some.injEq] at h
      exact .inl ⟨st, h.symm, hst, heappop_eq_none.mp hp⟩
    | some x =>
      obtain ⟨⟨c, m⟩, rest⟩ := x
      simp only [hp] at h
      cases he : expand vr g pg c m ⟨rest, st.bestPlan⟩ with
      | error e =>
        simp only [he, Option.some.injEq] at h
        exact .inr ⟨st, c, m, rest, e, h.symm, hst, hp, he⟩
      | ok st' =>
        simp only [he] at h
        exact searchLoop_cases (hst.step hp he) h

theorem aoStarSearch_ok {fuel : Nat} {p : PlanningResult n}
    (h : aoStarSearch vr g pg fuel = some (.ok p)) :
    ∃ st, LoopReachable vr g pg st ∧ st.bestPlan = some p := by
  unfold aoStarSearch at h
  cases hl : searchLoop vr g pg fuel (initState pg) with
  | none => simp [hl] at h
  | some r =>
    simp only [hl, Option.map_some', Option.some.injEq] at h
    rcases searchLoop_cases .init hl with ⟨st, rfl, hst, -⟩ | ⟨_, _, _, _, e, rfl, -⟩
    · refine ⟨st, hst, ?_⟩
      cases hb : st.bestPlan <;> simp_all [Except.bind]
    · simp [Except.bind] at h

theorem aoStarSearch_error {fuel : Nat} {e : PlanError}
    (h : aoStarSearch vr g pg fuel = some (.error e)) :
    (∃ st, LoopReachable vr g pg st ∧ st.bestPlan = none ∧
      e = .planException "No valid plan found within constraints") ∨
    ∃ st c m rest, LoopReachable vr g pg st ∧ heappop st.heap = some ((c, m), rest) ∧
      expand vr g pg c m ⟨rest, st.bestPlan⟩ = .error e := by
  unfold aoStarSearch at h
  cases hl : searchLoop vr g pg fuel (initState pg) with
  | none => simp [hl] at h
  | some r =>
    simp only [hl, Option.map_some', Option.some.injEq] at h
    rcases searchLoop_cases .init hl with ⟨st, rfl, hst, -⟩ | ⟨st, c, m, rest, e', rfl, hst, hp, he⟩
    · refine .inl ⟨st, hst, ?_⟩
      cases hb : st.bestPlan <;> simp_all [Except.bind]
    · simp only [Except.bind, Except.error.injEq] at h
      exact .inr ⟨st, c, m, rest, hst, hp, h ▸ he⟩

theorem generatePlan_ok {fuel : Nat} {p : PlanningResult n}
    (h : generatePlan vr g pg fuel = some (.ok p)) :
    validateDag g pg.root = .ok () ∧ aoStarSearch vr g pg fuel = some (.ok p) := by
  unfold generatePlan at h
  split at h
  · cases h
  · exact ⟨‹_›, h⟩

end Qervan.Planner.Search
