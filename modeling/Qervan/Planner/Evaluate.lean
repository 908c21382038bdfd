import Qervan.Planner.Model
import Mathlib.Tactic.Linarith

/-! # `_evaluate_option`: scoring one decomposition option

`_evaluate_option` walks the option's nodes, skips those whose state is not `"PENDING"`, adds each
resource amount to a running total, raises as soon as a running total passes `pool.get(res, 0)`,
and sums costs and takes the maximum of the risks, from `0`.

* `evaluateOption_ok`: a result carries the option itself, the per-resource totals over the pending
  nodes (`resourceTotal`), each recorded total within the pool, the sum of their costs (`costTotal`)
  and the maximum of `0` and their risks (`riskMax`).
* `evaluateOption_ok_iff`: it returns exactly when, reading the resource items of the pending nodes
  in order (`resourceItems`), every running total stays within the pool (`WithinPool`); the two
  nested loops are one loop over those items (`foldlM_evaluateNode_required`).
* `evaluateOption_error`: what it raises is a `ResourceConflictError`, or a `KeyError` for a
  resource the pool does not list: the message of the error reads `self.resource_pool[res]` where
  the check read `self.resource_pool.get(res, 0)` (`evaluateOption_keyError`). -/

namespace Qervan.Planner.Evaluate

open Qervan.Planner.Model

variable {n : Nat} (g : TaskGraph n)

/-! ### The evaluator -/

/-- One iteration of `for res, amount in node.resources.items()`: the running total of `res` grows
by `amount`, and if it passes `pool.get(res, 0)` the error message is built, reading `pool[res]`. -/
def addResource (pool required : Dict String Int) (item : String × Int) :
    Except PlanError (Dict String Int) :=
  let total := required.get item.1 0 + item.2
  if total > pool.get item.1 0 then
    match pool.get? item.1 with
    | none => .error (.keyError item.1)
    | some avail => .error (.resourceConflictError
        ("Insufficient " ++ item.1 ++ ": " ++ toString total ++ "/" ++ toString avail))
  else .ok (required.set item.1 total)

/-- The locals of `_evaluate_option`: `required_resources`, `total_cost`, `total_risk`. -/
structure Totals where
  required : Dict String Int
  cost : ℚ
  risk : ℚ

/-- One iteration of `for node in nodes`. -/
def evaluateNode (pool : Dict String Int) (acc : Totals) (node : Fin n) : Except PlanError Totals :=
  if (g node).state ≠ "PENDING" then .ok acc
  else do
    let required ← (g node).resources.items.foldlM (addResource pool) acc.required
    pure ⟨required, acc.cost + (g node).cost, max acc.risk (g node).risk⟩

/-- `_evaluate_option(nodes)` against the pool `pool`. -/
def evaluateOption (pool : Dict String Int) (nodes : List (Fin n)) :
    Except PlanError (PlanningResult n) := do
  let t ← nodes.foldlM (evaluateNode g pool) ⟨Dict.empty, 0, 0⟩
  pure { sequence := nodes, resourceUsage := t.required, cost := t.cost, riskFactor := t.risk }

/-! ### What a result holds -/

/-- The nodes of an option that `_evaluate_option` counts. -/
def pendingNodes (nodes : List (Fin n)) : List (Fin n) :=
  nodes.filter fun x => (g x).state = "PENDING"

/-- The total of resource `r` over the pending nodes. -/
def resourceTotal (nodes : List (Fin n)) (r : String) : Int :=
  ((pendingNodes g nodes).map fun x => (g x).resources.get r 0).sum

/-- The sum of the costs of the pending nodes. -/
def costTotal (nodes : List (Fin n)) : ℚ :=
  ((pendingNodes g nodes).map fun x => (g x).cost).sum

/-- The maximum of `0` and the risks of the pending nodes. -/
def riskMax (nodes : List (Fin n)) : ℚ :=
  (pendingNodes g nodes).foldl (fun acc x => max acc (g x).risk) 0

/-- The resource items `_evaluate_option` reads, in order: those of each pending node, in the order
of its `resources`. -/
def resourceItems (nodes : List (Fin n)) : List (String × Int) :=
  (pendingNodes g nodes).flatMap fun x => (g x).resources.items

/-- The total of `r` over the items read. -/
def runningTotal (items : List (String × Int)) (r : String) : Int :=
  ((items.filter fun it => it.1 = r).map Prod.snd).sum

/-- After each item read, the running total of its resource is within `pool.get(res, 0)`. -/
def WithinPool (pool : Dict String Int) (items : List (String × Int)) : Prop :=
  ∀ pre it, pre ++ [it] <+: items → runningTotal (pre ++ [it]) it.1 ≤ pool.get it.1 0

variable {g}

/-- The sum of the amounts listed under `r`: the dictionary's value, keys being unique. -/
theorem sum_amounts_eq_get (d : Dict String Int) (r : String) :
    ((d.items.filter fun it => it.1 = r).map Prod.snd).sum = d.get r 0 := by
  obtain ⟨items, hnd⟩ := d
  simp only [Dict.get, Dict.get?]
  induction items with
  | nil => simp
  | cons it items ih =>
    obtain ⟨k, v⟩ := it
    simp only [List.map_cons, List.nodup_cons, List.mem_map] at hnd
    by_cases hk : k = r
    · subst hk
      have hnil : (items.filter fun it => it.1 = k) = [] :=
        List.filter_eq_nil_iff.mpr fun it hit h => hnd.1 ⟨it, hit, by simpa using h⟩
      simp [List.filter_cons, hnil, List.lookup_cons]
    · simp [List.filter_cons, hk, List.lookup_cons, beq_eq_false_iff_ne.mpr (Ne.symm hk), ih hnd.2]

/-- The inner loop: on success, each key's total grew by its amounts, and every key it wrote is
within the pool. -/
theorem foldlM_addResource {pool : Dict String Int} :
    ∀ (items : List (String × Int)) (R R' : Dict String Int),
    items.foldlM (addResource pool) R = .ok R' →
      (∀ r, R'.get r 0 = R.get r 0 + ((items.filter fun it => it.1 = r).map Prod.snd).sum) ∧
      ∀ r v, R'.get? r = some v → R.get? r = some v ∨ v ≤ pool.get r 0
  | [], R, R', h => by
    cases h
    exact ⟨by simp, fun r v h => .inl h⟩
  | (k, a) :: items, R, R', h => by
    rw [List.foldlM_cons] at h
    obtain ⟨R1, h1, h2⟩ := bind_eq_ok.mp h
    simp only [addResource] at h1
    split_ifs at h1 with hgt
    · split at h1 <;> cases h1
    · cases h1
      obtain ⟨ih1, ih2⟩ := foldlM_addResource items _ R' h2
      refine ⟨fun r => ?_, fun r v hv => ?_⟩
      · rw [ih1]
        by_cases hr : r = k
        · subst hr; simp [List.filter_cons]; omega
        · simp [List.filter_cons, hr, Ne.symm hr]
      · rcases ih2 r v hv with h | h
        · by_cases hr : r = k
          · subst hr
            simp only [Dict.get?_set, if_true, Option.some.injEq] at h
            exact .inr (by omega)
          · simp only [Dict.get?_set, hr, if_false] at h
            exact .inl h
        · exact .inr h

theorem pendingNodes_append_singleton (pre : List (Fin n)) (x : Fin n) :
    pendingNodes g (pre ++ [x]) =
      if (g x).state = "PENDING" then pendingNodes g pre ++ [x] else pendingNodes g pre := by
  by_cases h : (g x).state = "PENDING" <;> simp [pendingNodes, List.filter_append, h]

/-- The locals after the nodes `pre`: totals, costs and risks over their pending nodes, and every
recorded total within the pool. -/
structure TotalsOf (g : TaskGraph n) (pool : Dict String Int) (pre : List (Fin n)) (t : Totals) :
    Prop where
  required : ∀ r, t.required.get r 0 = resourceTotal g pre r
  within : ∀ r v, t.required.get? r = some v → v ≤ pool.get r 0
  cost : t.cost = costTotal g pre
  risk : t.risk = riskMax g pre

theorem TotalsOf.step {pool : Dict String Int} {pre : List (Fin n)} {t t' : Totals} {x : Fin n}
    (ht : TotalsOf g pool pre t) (h : evaluateNode g pool t x = .ok t') :
    TotalsOf g pool (pre ++ [x]) t' := by
  simp only [evaluateNode] at h
  by_cases hx : (g x).state = "PENDING"
  · rw [if_neg (not_not.mpr hx)] at h
    obtain ⟨R, hR, hR'⟩ := bind_eq_ok.mp h
    cases hR'
    obtain ⟨h1, h2⟩ := foldlM_addResource _ _ _ hR
    refine ⟨fun r => ?_, fun r v hv => ?_, ?_, ?_⟩
    · simp [h1, ht.required, sum_amounts_eq_get, resourceTotal, pendingNodes_append_singleton, hx]
    · rcases h2 r v hv with h | h
      · exact ht.within r v h
      · exact h
    · simp [ht.cost, costTotal, pendingNodes_append_singleton, hx]
    · simp [ht.risk, riskMax, pendingNodes_append_singleton, hx]
  · rw [if_pos hx] at h
    cases h
    refine ⟨fun r => ?_, ht.within, ?_, ?_⟩
    · simp [ht.required, resourceTotal, pendingNodes_append_singleton, hx]
    · simp [ht.cost, costTotal, pendingNodes_append_singleton, hx]
    · simp [ht.risk, riskMax, pendingNodes_append_singleton, hx]

theorem runningTotal_cons (k : String) (a : Int) (items : List (String × Int)) (r : String) :
    runningTotal ((k, a) :: items) r = (if k = r then a else 0) + runningTotal items r := by
  by_cases h : k = r <;> simp [runningTotal, List.filter_cons, h]

/-- Reading `(k, a)` into the totals `R` moves `a` from the items still to read into the totals. -/
theorem get_set_add (R : Dict String Int) (k : String) (a : Int) (items : List (String × Int))
    (r : String) :
    (R.set k (R.get k 0 + a)).get r 0 + runningTotal items r =
      R.get r 0 + runningTotal ((k, a) :: items) r := by
  rw [runningTotal_cons, Dict.get_set]
  by_cases h : r = k
  · subst h; simp; omega
  · simp [h, Ne.symm h]

/-- The inner loop succeeds exactly when, from the totals `R`, every running total stays within the
pool. -/
theorem foldlM_addResource_ok_iff (pool : Dict String Int) :
    ∀ (items : List (String × Int)) (R : Dict String Int),
    (∃ R', items.foldlM (addResource pool) R = .ok R') ↔
      ∀ pre it, pre ++ [it] <+: items →
        R.get it.1 0 + runningTotal (pre ++ [it]) it.1 ≤ pool.get it.1 0
  | [], R => by simp [List.prefix_nil]; exact ⟨R, rfl⟩
  | (k, a) :: items, R => by
    have hfirst : runningTotal [(k, a)] k = a := by simp [runningTotal]
    rw [List.foldlM_cons]
    by_cases hk : R.get k 0 + a > pool.get k 0
    · obtain ⟨e, he⟩ : ∃ e, addResource pool R (k, a) = .error e := by
        simp only [addResource, hk, if_true]
        split <;> exact ⟨_, rfl⟩
      rw [he]
      refine ⟨fun ⟨_, h⟩ => (by cases h), fun H => absurd (H [] (k, a) (by simp)) ?_⟩
      simpa [hfirst] using hk
    · have hstep : addResource pool R (k, a) = .ok (R.set k (R.get k 0 + a)) := by
        simp [addResource, hk]
      rw [hstep, bind_ok_eq, foldlM_addResource_ok_iff pool items]
      constructor
      · intro H pre it hpre
        cases pre with
        | nil =>
          obtain rfl : it = (k, a) := (List.cons_prefix_cons.mp hpre).1
          simpa [hfirst] using hk
        | cons p pre =>
          obtain ⟨rfl, hpre'⟩ := List.cons_prefix_cons.mp hpre
          simpa only [get_set_add] using H pre it hpre'
      · intro H pre it hpre
        rw [get_set_add]
        exact H ((k, a) :: pre) it (List.cons_prefix_cons.mpr ⟨rfl, hpre⟩)

/-- The nested loops of `_evaluate_option` compute their totals as one loop over the resource
items of the pending nodes. -/
theorem foldlM_evaluateNode_required (pool : Dict String Int) :
    ∀ (nodes : List (Fin n)) (t : Totals),
    Totals.required <$> nodes.foldlM (evaluateNode g pool) t =
      (resourceItems g nodes).foldlM (addResource pool) t.required
  | [], t => rfl
  | x :: nodes, t => by
    have ih := foldlM_evaluateNode_required pool nodes
    by_cases hx : (g x).state = "PENDING" <;>
      simp [List.foldlM_cons, evaluateNode, resourceItems, pendingNodes, List.filter_cons, hx, ih]

/-- **When `_evaluate_option` returns.** It returns a result exactly when, reading the resource
items of the pending nodes in order, every running total stays within `pool.get(res, 0)`. The check
follows each addition, so a later negative amount does not make up for an earlier excess. -/
theorem evaluateOption_ok_iff (pool : Dict String Int) (nodes : List (Fin n)) :
    (∃ q, evaluateOption g pool nodes = .ok q) ↔ WithinPool pool (resourceItems g nodes) :=
  calc (∃ q, evaluateOption g pool nodes = .ok q)
      ↔ ∃ t, nodes.foldlM (evaluateNode g pool) ⟨Dict.empty, 0, 0⟩ = .ok t := by
        unfold evaluateOption
        cases nodes.foldlM (evaluateNode g pool) ⟨Dict.empty, 0, 0⟩ <;> simp [Except.bind]
    _ ↔ ∃ R, (resourceItems g nodes).foldlM (addResource pool) Dict.empty = .ok R := by
        rw [← foldlM_evaluateNode_required pool nodes ⟨Dict.empty, 0, 0⟩]
        cases nodes.foldlM (evaluateNode g pool) ⟨Dict.empty, 0, 0⟩ <;>
          simp [Functor.map, Except.map]
    _ ↔ WithinPool pool (resourceItems g nodes) := by
        rw [foldlM_addResource_ok_iff]
        simp [WithinPool]

/-- What the evaluator raises: a `ResourceConflictError`, or a `KeyError` naming a resource the pool
does not list. -/
def EvaluateError (pool : Dict String Int) (e : PlanError) : Prop :=
  (∃ msg, e = .resourceConflictError msg) ∨ ∃ r, e = .keyError r ∧ pool.get? r = none

theorem addResource_error {pool R : Dict String Int} {item : String × Int} {e : PlanError}
    (h : addResource pool R item = .error e) : EvaluateError pool e := by
  simp only [addResource] at h
  split_ifs at h
  split at h <;> cases h
  · exact .inr ⟨_, rfl, ‹_›⟩
  · exact .inl ⟨_, rfl⟩

theorem evaluateOption_error {pool : Dict String Int} {nodes : List (Fin n)} {e : PlanError}
    (h : evaluateOption g pool nodes = .error e) : EvaluateError pool e := by
  have hnode : ∀ t x e, evaluateNode g pool t x = .error e → EvaluateError pool e := by
    intro t x e h
    simp only [evaluateNode] at h
    split_ifs at h
    rcases bind_eq_error.mp h with h | ⟨_, _, h⟩
    · exact foldlM_error _ (fun _ _ _ => addResource_error) _ _ _ h
    · cases h
  rcases bind_eq_error.mp h with h | ⟨_, _, h⟩
  · exact foldlM_error _ hnode _ _ _ h
  · cases h

/-- While no item read requires a positive amount of `r`, the running total of `r` stays at most
`0`, and no step raises `KeyError(r)`. -/
theorem addResource_nonpos {pool R : Dict String Int} {r : String} {item : String × Int}
    (hitem : item.1 = r → item.2 ≤ 0) (hR : R.get r 0 ≤ 0) :
    (∀ R', addResource pool R item = .ok R' → R'.get r 0 ≤ 0) ∧
      addResource pool R item ≠ .error (.keyError r) := by
  obtain ⟨k, a⟩ := item
  simp only [addResource]
  split_ifs with hgt
  · refine ⟨fun _ h => (by split at h <;> cases h), fun h => ?_⟩
    split at h
    · rename_i hp
      cases h
      rw [Dict.get_of_get?_eq_none hp] at hgt
      linarith [hitem rfl]
    · cases h
  · refine ⟨fun _ h => ?_, by simp⟩
    cases h
    rw [Dict.get_set]
    split_ifs with hr
    · subst hr
      linarith [hitem rfl]
    · exact hR

/-- The same for one node that requires no positive amount of `r`. -/
theorem evaluateNode_nonpos {pool : Dict String Int} {t : Totals} {x : Fin n} {r : String}
    (hx : (g x).resources.get r 0 ≤ 0) (ht : t.required.get r 0 ≤ 0) :
    (∀ t', evaluateNode g pool t x = .ok t' → t'.required.get r 0 ≤ 0) ∧
      evaluateNode g pool t x ≠ .error (.keyError r) := by
  have hitem : ∀ item ∈ (g x).resources.items, item.1 = r → item.2 ≤ 0 := by
    rintro ⟨k, a⟩ hmem rfl
    rwa [← Dict.get_eq_of_get? (Dict.get?_of_mem hmem) 0]
  have hinv : ∀ item ∈ (g x).resources.items, ∀ R R' : Dict String Int, R.get r 0 ≤ 0 →
      addResource pool R item = .ok R' → R'.get r 0 ≤ 0 :=
    fun item hi _ _ hR => (addResource_nonpos (hitem item hi) hR).1 _
  unfold evaluateNode
  split_ifs
  · exact ⟨fun t' h => by cases h; exact ht, by simp⟩
  refine ⟨fun t' h => ?_, fun h => ?_⟩
  · obtain ⟨R, hR, hR'⟩ := bind_eq_ok.mp h
    cases hR'
    exact foldlM_invariant (fun R : Dict String Int => R.get r 0 ≤ 0) _ _ _ hinv ht hR
  · rcases bind_eq_error.mp h with h | ⟨_, _, h⟩
    · obtain ⟨item, hi, R, hR, he⟩ :=
        foldlM_error_of_invariant (fun R : Dict String Int => R.get r 0 ≤ 0) _ _ _ hinv ht h
      exact (addResource_nonpos (hitem item hi) hR).2 he
    · cases h

/-- A `KeyError` names a resource the pool does not list and some node of the option requires a
positive amount of. -/
theorem evaluateOption_keyError_cases {pool : Dict String Int} {nodes : List (Fin n)} {r : String}
    (h : evaluateOption g pool nodes = .error (.keyError r)) :
    pool.get? r = none ∧ ∃ x ∈ nodes, 0 < (g x).resources.get r 0 := by
  refine ⟨?_, ?_⟩
  · obtain ⟨_, ⟨⟩⟩ | ⟨_, ⟨⟩, hr⟩ := evaluateOption_error h
    exact hr
  by_contra hpos
  push_neg at hpos
  rcases bind_eq_error.mp h with h | ⟨_, _, h⟩
  · obtain ⟨x, hx, t, ht, he⟩ :=
      foldlM_error_of_invariant (fun t : Totals => t.required.get r 0 ≤ 0) nodes _ _
        (fun x hx _ t' ht => (evaluateNode_nonpos (hpos x hx) ht).1 t') (by simp) h
    exact (evaluateNode_nonpos (hpos x hx) ht).2 he
  · cases h

/-! ### A resource the pool does not list -/

/-- `AtomicNode("Render", resources={"gpu": 1})`. -/
def renderNode : TaskGraph 1 := fun _ => TaskNode.init .atomic "Render" [] ⟨[("gpu", 1)], by decide⟩

/-- The pool `{"cpu": 8}`. -/
def cpuPool : Dict String Int := ⟨[("cpu", 8)], by decide⟩

/-- The running total of `gpu`, `1`, passes `cpuPool.get("gpu", 0) = 0`, and the error message's
`cpuPool["gpu"]` raises `KeyError`. -/
theorem evaluateOption_keyError :
    cpuPool.get "gpu" 0 < 1 ∧ evaluateOption renderNode cpuPool [0] = .error (.keyError "gpu") :=
  ⟨by decide, rfl⟩

end Qervan.Planner.Evaluate
