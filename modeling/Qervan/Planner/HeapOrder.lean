import Qervan.Planner.Search

/-! # The heap never holds two entries of one cost

`_ao_star_search` pushes only when `total_cost < best_plan.cost` (or before any plan), and the
pushed cost becomes `best_plan.cost`. So every queued cost is at least `best_plan.cost`, every push
lands strictly below every queued entry, and the heap, read from its most recent push, strictly
increases (`Ordered`). Entries of equal cost, which `heapq` would order by comparing two
`TaskNode`s, never meet (`search_pushes_below_queue`).

While there is no best plan, the heap holds at most the root at the head of the loop
(`LoopOrdered`), and nothing inside an iteration (`ExpandOrdered`): the root is the only entry
queued before the first push. -/

namespace Qervan.Planner.HeapOrder

open Qervan.Planner.Model Qervan.Planner.Decompose Qervan.Planner.Search

variable {n : Nat} {vr : Validator n} {g : TaskGraph n} {pg : PlanningGraph n}

/-- The heap's costs increase from the most recent push, and none is below the best plan's cost. -/
structure Ordered (st : SearchState n) : Prop where
  sorted : st.heap.Pairwise fun a b => a.1 < b.1
  above_best : ∀ best, st.bestPlan = some best → ∀ e ∈ st.heap, best.cost ≤ e.1

/-- `Ordered` at the head of the loop, with at most the root queued while there is no best plan. -/
structure LoopOrdered (st : SearchState n) extends Ordered st : Prop where
  short : st.bestPlan = none → st.heap.length ≤ 1

/-- `Ordered` inside an iteration, with nothing queued while there is no best plan. -/
structure ExpandOrdered (st : SearchState n) extends Ordered st : Prop where
  empty : st.bestPlan = none → st.heap = []

/-- A cost that passes the guard of the push is below every queued cost. -/
theorem ExpandOrdered.lt_of_guard {st : SearchState n} (hst : ExpandOrdered st) {t : ℚ}
    (ht : st.bestPlan.all fun best => t < best.cost) : ∀ e ∈ st.heap, t < e.1 := by
  cases hb : st.bestPlan with
  | none => simp [hst.empty hb]
  | some best =>
    rw [hb] at ht
    exact fun e he => lt_of_lt_of_le (by simpa using ht) (hst.above_best best hb e he)

theorem ExpandOrdered.tryOption {st st' : SearchState n} {c : ℚ} {o : List (Fin n)}
    (hst : ExpandOrdered st) (h : tryOption g pg c st o = .ok st') : ExpandOrdered st' := by
  rcases tryOption_cases h with rfl | ⟨plan, last, -, -, hbest, -, -, rfl⟩
  · exact hst
  · have hlt := hst.lt_of_guard hbest
    refine ⟨⟨List.Pairwise.cons (fun e he => hlt e he) hst.sorted, fun best hb e he => ?_⟩,
      by simp⟩
    cases hb
    rcases List.mem_cons.mp he with rfl | he
    · exact le_rfl
    · exact (hlt e he).le

theorem ExpandOrdered.expand {st st' : SearchState n} {c : ℚ} {m : Fin n}
    (hst : ExpandOrdered st) (h : expand vr g pg c m st = .ok st') : ExpandOrdered st' := by
  rcases expand_cases h with rfl | ⟨decs, -, -, hf⟩
  · exact hst
  · exact foldlM_invariant ExpandOrdered decs st st'
      (fun _ _ _ _ hx hstep => hx.tryOption hstep) hst hf

theorem ExpandOrdered.loopOrdered {st : SearchState n} (hst : ExpandOrdered st) :
    LoopOrdered st :=
  ⟨hst.toOrdered, fun hb => by simp [hst.empty hb]⟩

/-- Popping from a state ordered at the head of the loop takes the most recent push. -/
theorem LoopOrdered.pop {st : SearchState n} {c : ℚ} {m : Fin n} {rest : List (ℚ × Fin n)}
    (hst : LoopOrdered st) (hp : heappop st.heap = some ((c, m), rest)) :
    st.heap = (c, m) :: rest ∧ ExpandOrdered ⟨rest, st.bestPlan⟩ := by
  obtain ⟨e, es, hh⟩ : ∃ e es, st.heap = e :: es :=
    List.exists_cons_of_ne_nil fun h0 => by simp [h0, heappop] at hp
  have hs := hst.sorted
  rw [hh] at hs hp
  rw [heappop_of_sorted hs] at hp
  obtain ⟨rfl, rfl⟩ := Prod.mk.inj (Option.some.inj hp)
  refine ⟨hh, ⟨hs.of_cons, fun best hb x hx => hst.above_best best hb x ?_⟩, fun hb => ?_⟩
  · rw [hh]; exact List.mem_cons_of_mem _ hx
  · have := hst.short hb
    rw [hh] at this
    simpa using this

theorem loopReachable_ordered {st : SearchState n} (h : LoopReachable vr g pg st) :
    LoopOrdered st := by
  induction h with
  | init => exact ⟨⟨by simp [initState], by simp [initState]⟩, by simp [initState]⟩
  | step _ hp he ih => exact ((ih.pop hp).2.expand he).loopOrdered

theorem optionReachable_ordered {c : ℚ} {st : SearchState n} (h : OptionReachable vr g pg c st) :
    ExpandOrdered st := by
  induction h with
  | start hr hp => exact ((loopReachable_ordered hr).pop hp).2
  | next _ ht ih => exact ih.tryOption ht

/-- **No cost ties.** At the head of the loop the heap's costs strictly increase from the most
recent push (so no two are equal) and none is below `best_plan.cost`; and wherever an option is
tried, a cost that passes the guard of the push is strictly below every queued cost, so `heappush`
compares no two `TaskNode`s and succeeds. -/
theorem search_pushes_below_queue (vr : Validator n) (g : TaskGraph n) (pg : PlanningGraph n) :
    (∀ st, LoopReachable vr g pg st → st.heap.Pairwise (fun a b => a.1 < b.1) ∧
      ∀ best, st.bestPlan = some best → ∀ e ∈ st.heap, best.cost ≤ e.1) ∧
    ∀ c st, OptionReachable vr g pg c st → ∀ (totalCost : ℚ) (last : Fin n),
      (st.bestPlan.all fun best => totalCost < best.cost) →
      (∀ e ∈ st.heap, totalCost < e.1) ∧
        heappush g st.heap (totalCost, last) = .ok ((totalCost, last) :: st.heap) := by
  refine ⟨fun st h => ?_, fun c st h t last ht => ?_⟩
  · have hst := loopReachable_ordered h
    exact ⟨hst.sorted, hst.above_best⟩
  · have hlt := (optionReachable_ordered h).lt_of_guard ht
    exact ⟨hlt, heappush_of_lt hlt⟩

end Qervan.Planner.HeapOrder
