import Qervan.Planner.Search
import Mathlib.Logic.Hydra
import Mathlib.Data.Fintype.Card

/-! # `generate_plan` terminates

`validate_dag` runs first and raises on every graph with a cycle reachable from the root. On the
other graphs, every entry an iteration pushes is a child of the node it popped (`expand_pushes`).
So the multiset of queued nodes takes, at each iteration, one step of `Relation.CutExpand`: one node
leaves, and finitely many nodes strictly below it (`Below`) come in. Below a reachable node of an
acyclic finite graph is well founded, hence so is its `CutExpand` (Mathlib's hydra lemma), and the
loop stops whatever the costs (`generatePlan_terminates`). -/

namespace Qervan.Planner.Termination

open Relation Qervan.Planner.Model Qervan.Planner.ValidateDag Qervan.Planner.Decompose
open Qervan.Planner.Search

variable {n : Nat} {vr : Validator n} {g : TaskGraph n} {pg : PlanningGraph n}

/-- **Every push is a child of the popped node.** -/
theorem expand_pushes {c : ℚ} {m : Fin n} {st st' : SearchState n}
    (h : expand vr g pg c m st = .ok st') :
    ∃ pushed, st'.heap = pushed ++ st.heap ∧ ∀ e ∈ pushed, ChildEdge g m e.2 := by
  rcases expand_cases h with rfl | ⟨decs, -, hd, hf⟩
  · exact ⟨[], rfl, by simp⟩
  · refine foldlM_invariant (fun s => ∃ pushed, s.heap = pushed ++ st.heap ∧
      ∀ e ∈ pushed, ChildEdge g m e.2) decs st st' (fun o ho s s' ⟨pushed, hs, hp⟩ ht => ?_)
      ⟨[], rfl, by simp⟩ hf
    rcases tryOption_cases ht with rfl | ⟨plan, last, -, -, -, hlast, -, rfl⟩
    · exact ⟨pushed, hs, hp⟩
    · refine ⟨(c + plan.cost, last) :: pushed, by simp [hs], fun e he => ?_⟩
      rcases List.mem_cons.mp he with rfl | he
      · exact (decompose_option hd ho).2.2.1.subset (List.mem_of_getLast?_eq_some hlast)
      · exact hp e he

/-- `c` is strictly below `m`, a node reachable from `root`. -/
def Below (g : TaskGraph n) (root c m : Fin n) : Prop :=
  ReflTransGen (ChildEdge g) root m ∧ TransGen (ChildEdge g) m c

theorem below_wf {root : Fin n} (hacyc : ¬ CycleReachable g root) : WellFounded (Below g root) :=
  haveI : IsTrans (Fin n) (Below g root) :=
    ⟨fun _ _ _ ⟨_, h1⟩ ⟨h2r, h2⟩ => ⟨h2r, h2.trans h1⟩⟩
  haveI : IsIrrefl (Fin n) (Below g root) := ⟨fun a ⟨hr, hc⟩ => hacyc ⟨a, hr, hc⟩⟩
  Finite.wellFounded_of_trans_of_irrefl _

/-- The nodes on the heap. -/
def queued (st : SearchState n) : Multiset (Fin n) := (st.heap.map Prod.snd : List (Fin n))

/-- One iteration from a heap of reachable nodes: a `CutExpand` step, to a heap of reachable
nodes. -/
theorem iteration_cutExpand {st st' : SearchState n} {c : ℚ} {m : Fin n}
    {rest : List (ℚ × Fin n)} (hreach : ∀ e ∈ st.heap, ReflTransGen (ChildEdge g) pg.root e.2)
    (hp : heappop st.heap = some ((c, m), rest))
    (he : expand vr g pg c m ⟨rest, st.bestPlan⟩ = .ok st') :
    CutExpand (Below g pg.root) (queued st') (queued st) ∧
      ∀ e ∈ st'.heap, ReflTransGen (ChildEdge g) pg.root e.2 := by
  have hperm := heappop_perm hp
  obtain ⟨pushed, hheap, hchild⟩ := expand_pushes he
  have hm : ReflTransGen (ChildEdge g) pg.root m :=
    hreach (c, m) (hperm.symm.subset (List.mem_cons_self _ _))
  refine ⟨⟨(pushed.map Prod.snd : List (Fin n)), m, fun a ha => ?_, ?_⟩, fun e he' => ?_⟩
  · obtain ⟨e, he, rfl⟩ := List.mem_map.mp (Multiset.mem_coe.mp ha)
    exact ⟨hm, .single (hchild e he)⟩
  · have hst : queued st = {m} + (rest.map Prod.snd : List (Fin n)) := by
      rw [queued, Multiset.coe_eq_coe.mpr (hperm.map Prod.snd)]; rfl
    rw [hst]
    simp only [queued, hheap, List.map_append, ← Multiset.coe_add]
    ac_rfl
  · rw [hheap] at he'
    rcases List.mem_append.mp he' with he' | he'
    · exact hm.tail (hchild e he')
    · exact hreach e (hperm.symm.subset (List.mem_cons_of_mem _ he'))

/-- More fuel does not change a result the loop returned. -/
theorem searchLoop_add_fuel :
    ∀ {fuel k : Nat} {st : SearchState n} {r : Except PlanError (SearchState n)},
    searchLoop vr g pg fuel st = some r → searchLoop vr g pg (fuel + k) st = some r
  | 0, _, _, _, h => by simp [searchLoop] at h
  | fuel + 1, k, st, r, h => by
    rw [show fuel + 1 + k = (fuel + k) + 1 by omega]
    cases hp : heappop st.heap with
    | none => simpa [searchLoop, hp] using h
    | some x =>
      obtain ⟨⟨c, m⟩, rest⟩ := x
      cases he : expand vr g pg c m ⟨rest, st.bestPlan⟩ with
      | error e => simpa [searchLoop, hp, he] using h
      | ok st' =>
        simp only [searchLoop, hp, he] at h ⊢
        exact searchLoop_add_fuel h

/-- On a graph with no cycle reachable from the root, the loop stops from every heap of reachable
nodes. -/
theorem searchLoop_terminates (hacyc : ¬ CycleReachable g pg.root) (st : SearchState n)
    (hreach : ∀ e ∈ st.heap, ReflTransGen (ChildEdge g) pg.root e.2) :
    ∃ B r, searchLoop vr g pg B st = some r := by
  suffices ∀ M (st : SearchState n), queued st = M →
      (∀ e ∈ st.heap, ReflTransGen (ChildEdge g) pg.root e.2) →
      ∃ B r, searchLoop vr g pg B st = some r from this _ st rfl hreach
  intro M
  induction M using (WellFounded.cutExpand (below_wf hacyc)).induction with
  | _ M ih =>
    intro st hM hreach
    cases hp : heappop st.heap with
    | none => exact ⟨1, .ok st, by simp [searchLoop, hp]⟩
    | some x =>
      obtain ⟨⟨c, m⟩, rest⟩ := x
      cases he : expand vr g pg c m ⟨rest, st.bestPlan⟩ with
      | error e => exact ⟨1, .error e, by simp [searchLoop, hp, he]⟩
      | ok st' =>
        obtain ⟨hcut, hreach'⟩ := iteration_cutExpand hreach hp he
        obtain ⟨B, r, hB⟩ := ih _ (hM ▸ hcut) st' rfl hreach'
        exact ⟨B + 1, r, by simp [searchLoop, hp, he, hB]⟩

/-- **`generate_plan` terminates.** From some fuel on it returns one result, which more fuel does
not change; `validate_dag` raises on every graph with a cycle reachable from the root; and every
entry an iteration of the search pushes is a child of the node it popped. -/
theorem generatePlan_terminates (vr : Validator n) (g : TaskGraph n) (pg : PlanningGraph n) :
    (∃ B r, ∀ fuel, generatePlan vr g pg (B + fuel) = some r) ∧
    (CycleReachable g pg.root → ∃ e, validateDag g pg.root = .error e) ∧
    ∀ st c m rest st', LoopReachable vr g pg st → heappop st.heap = some ((c, m), rest) →
      expand vr g pg c m ⟨rest, st.bestPlan⟩ = .ok st' →
        ∃ pushed, st'.heap = pushed ++ rest ∧ ∀ e ∈ pushed, ChildEdge g m e.2 := by
  refine ⟨?_, fun hcyc => ?_, fun _ _ _ _ _ _ _ he => expand_pushes he⟩
  · cases hv : validateDag g pg.root with
    | error e => exact ⟨0, .error e, fun _ => by simp [generatePlan, hv]⟩
    | ok u =>
      obtain ⟨B, r, hr⟩ : ∃ B r, searchLoop vr g pg B (initState pg) = some r :=
        searchLoop_terminates (not_cycleReachable_of_validateDag hv) (initState pg)
          (by simp [initState, ReflTransGen.refl])
      exact ⟨B, _, fun _ => by rw [generatePlan, hv, aoStarSearch, searchLoop_add_fuel hr]; rfl⟩
  · cases hv : validateDag g pg.root with
    | error e => exact ⟨e, rfl⟩
    | ok u => exact absurd hcyc (not_cycleReachable_of_validateDag hv)

end Qervan.Planner.Termination
