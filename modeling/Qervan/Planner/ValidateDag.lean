import Qervan.Planner.Model

/-! # `validate_dag`: the pre-flight cycle check

`validate_dag` walks `_children` edges with an explicit stack of `(node, path)` pairs and a global
`visited` set: a popped node already on its own `path` is a cycle, a visited one is skipped, and a
fresh one is marked and pushes its children with `path | {node}`.

The loop terminates on every graph (`validateLoop` decreases the number of unvisited nodes, or the
stack), and it raises exactly on the graphs where a cycle is reachable from the start
(`validateDag_ok_iff`). The two directions:

* soundness, `validateLoop_error`: every pushed pair `(c, path)` has `c` reachable from the start
  and from every node of `path` by at least one edge, so the node it raises at lies on a cycle;
* completeness, `validateLoop_finished`: running a stack that starts with a block of pairs sharing
  one path is running that block to its end and then the rest (`validateLoop_append`), so the
  iterative walk is a recursive depth-first search; the nodes it has finished (`visited` off the
  current path) are closed under edges and reach no cycle (`Finished`). -/

namespace Qervan.Planner.ValidateDag

open Relation Qervan.Planner.Model

variable {n : Nat} (g : TaskGraph n)

/-! ### The loop -/

/-- The pairs `validate_dag` pushes when it first visits `node` by `path`: one per child, with
`path | {node}`, the last child on top. -/
def pushChildren (node : Fin n) (path : Finset (Fin n)) : List (Fin n × Finset (Fin n)) :=
  ((g node).children.map fun child => (child, insert node path)).reverse

/-- The `while stack` loop of `validate_dag`, the top of the stack first; it answers the final
`visited`. -/
def validateLoop (visited : Finset (Fin n)) (stack : List (Fin n × Finset (Fin n))) :
    Except PlanError (Finset (Fin n)) :=
  match stack with
  | [] => .ok visited
  | (node, path) :: stack =>
    if node ∈ path then .error (.circularDependencyError ("Cycle detected at " ++ (g node).id))
    else if node ∈ visited then validateLoop visited stack
    else validateLoop (insert node visited) (pushChildren g node path ++ stack)
termination_by (n - visited.card, stack.length)
decreasing_by
  all_goals simp_wf
  · exact Prod.Lex.right _ (by omega)
  · apply Prod.Lex.left
    have h1 := Finset.card_insert_of_not_mem ‹node ∉ visited›
    have h2 := Finset.card_le_univ (insert node visited)
    simp only [Fintype.card_fin] at h2
    omega

/-- `validate_dag()` on `self`. -/
def validateDag (self : Fin n) : Except PlanError Unit :=
  (validateLoop g ∅ [(self, ∅)]).map fun _ => ()

variable {g}

theorem validateLoop_nil (V : Finset (Fin n)) : validateLoop g V [] = .ok V := by
  rw [validateLoop]

theorem validateLoop_cons_path {V P : Finset (Fin n)} {node : Fin n}
    (stack : List (Fin n × Finset (Fin n))) (h : node ∈ P) :
    validateLoop g V ((node, P) :: stack) =
      .error (.circularDependencyError ("Cycle detected at " ++ (g node).id)) := by
  rw [validateLoop, if_pos h]

theorem validateLoop_cons_visited {V P : Finset (Fin n)} {node : Fin n}
    (stack : List (Fin n × Finset (Fin n))) (hP : node ∉ P) (hV : node ∈ V) :
    validateLoop g V ((node, P) :: stack) = validateLoop g V stack := by
  rw [validateLoop, if_neg hP, if_pos hV]

theorem validateLoop_cons_fresh {V P : Finset (Fin n)} {node : Fin n}
    (stack : List (Fin n × Finset (Fin n))) (hP : node ∉ P) (hV : node ∉ V) :
    validateLoop g V ((node, P) :: stack) =
      validateLoop g (insert node V) (pushChildren g node P ++ stack) := by
  rw [validateLoop, if_neg hP, if_neg hV]

/-- Running `s ++ rest` is running `s` to its end, then `rest` from the `visited` it leaves. -/
theorem validateLoop_append (V : Finset (Fin n)) (s rest : List (Fin n × Finset (Fin n))) :
    validateLoop g V (s ++ rest) = validateLoop g V s >>= fun V' => validateLoop g V' rest := by
  induction V, s using validateLoop.induct g with
  | case1 V => simp [validateLoop_nil, bind, Except.bind]
  | case2 V node P stack h =>
    simp [validateLoop_cons_path _ h, bind, Except.bind]
  | case3 V node P stack hP hV ih =>
    rw [List.cons_append, validateLoop_cons_visited _ hP hV, validateLoop_cons_visited _ hP hV, ih]
  | case4 V node P stack hP hV ih =>
    rw [List.cons_append, validateLoop_cons_fresh _ hP hV, validateLoop_cons_fresh _ hP hV,
      ← List.append_assoc, ih]

/-! ### Soundness: a raise names a node on a reachable cycle -/

/-- Every pushed pair `(c, path)`: `c` is reachable from `root`, and from every node of `path` by at
least one edge. -/
def StackOK (g : TaskGraph n) (root : Fin n) (stack : List (Fin n × Finset (Fin n))) : Prop :=
  ∀ e ∈ stack, ReflTransGen (ChildEdge g) root e.1 ∧ ∀ p ∈ e.2, TransGen (ChildEdge g) p e.1

theorem stackOK_pushChildren {root node : Fin n} {P : Finset (Fin n)}
    (hr : ReflTransGen (ChildEdge g) root node) (hp : ∀ p ∈ P, TransGen (ChildEdge g) p node) :
    StackOK g root (pushChildren g node P) := by
  intro e he
  simp only [pushChildren, List.mem_reverse, List.mem_map] at he
  obtain ⟨c, hc, rfl⟩ := he
  have hedge : ChildEdge g node c := hc
  refine ⟨hr.tail hedge, fun p hp' => ?_⟩
  rcases Finset.mem_insert.mp hp' with rfl | hp'
  · exact .single hedge
  · exact (hp p hp').tail hedge

theorem validateLoop_error {root : Fin n} {V : Finset (Fin n)}
    {stack : List (Fin n × Finset (Fin n))} {e : PlanError} (hs : StackOK g root stack)
    (h : validateLoop g V stack = .error e) :
    ∃ x, ReflTransGen (ChildEdge g) root x ∧ TransGen (ChildEdge g) x x ∧
      e = .circularDependencyError ("Cycle detected at " ++ (g x).id) := by
  induction V, stack using validateLoop.induct g with
  | case1 V => simp [validateLoop_nil] at h
  | case2 V node P stack hP =>
    rw [validateLoop_cons_path _ hP] at h
    obtain ⟨hr, hpath⟩ := hs _ (List.mem_cons_self _ _)
    exact ⟨node, hr, hpath node hP, (Except.error.inj h).symm⟩
  | case3 V node P stack hP hV ih =>
    rw [validateLoop_cons_visited _ hP hV] at h
    exact ih (fun e he => hs e (List.mem_cons_of_mem _ he)) h
  | case4 V node P stack hP hV ih =>
    rw [validateLoop_cons_fresh _ hP hV] at h
    obtain ⟨hr, hpath⟩ := hs _ (List.mem_cons_self _ _)
    refine ih (fun e he => ?_) h
    rcases List.mem_append.mp he with he | he
    · exact stackOK_pushChildren hr hpath e he
    · exact hs e (List.mem_cons_of_mem _ he)

/-! ### Completeness: a run without a raise leaves no reachable cycle -/

/-- What the walk knows when it is inside the nodes of `P` (the current path): they are visited, and
the finished nodes, visited and off the path, are closed under `_children` edges and reach no
cycle. -/
structure Finished (g : TaskGraph n) (V P : Finset (Fin n)) : Prop where
  path_sub : P ⊆ V
  closed : ∀ b ∈ V, b ∉ P → ∀ c, ChildEdge g b c → c ∈ V ∧ c ∉ P
  acyclic : ∀ b ∈ V, b ∉ P → ¬ CycleReachable g b

theorem finished_empty : Finished g ∅ ∅ := ⟨subset_rfl, by simp, by simp⟩

theorem Finished.reach {V P : Finset (Fin n)} (hF : Finished g V P) {b y : Fin n} (hb : b ∈ V)
    (hbP : b ∉ P) (h : ReflTransGen (ChildEdge g) b y) : y ∈ V ∧ y ∉ P := by
  induction h with
  | refl => exact ⟨hb, hbP⟩
  | tail _ hc ih => exact hF.closed _ ih.1 ih.2 _ hc

/-- Entering a fresh node: it joins the visited set and the path. -/
theorem Finished.enter {V P : Finset (Fin n)} (hF : Finished g V P) {node : Fin n} (hV : node ∉ V) :
    Finished g (insert node V) (insert node P) where
  path_sub := Finset.insert_subset_insert _ hF.path_sub
  closed b hb hbP c hc := by
    have hbV : b ∈ V :=
      (Finset.mem_insert.mp hb).resolve_left fun h => hbP (h ▸ Finset.mem_insert_self _ _)
    obtain ⟨hcV, hcP⟩ := hF.closed b hbV (fun h => hbP (Finset.mem_insert_of_mem h)) c hc
    exact ⟨Finset.mem_insert_of_mem hcV,
      by rw [Finset.mem_insert]; exact not_or.mpr ⟨fun h => hV (h ▸ hcV), hcP⟩⟩
  acyclic b hb hbP := hF.acyclic b
    ((Finset.mem_insert.mp hb).resolve_left fun h => hbP (h ▸ Finset.mem_insert_self _ _))
    (fun h => hbP (Finset.mem_insert_of_mem h))

/-- Leaving a node whose children are all finished: it is finished too. A cycle through it would
come back from a finished child, which reaches only finished nodes. -/
theorem Finished.leave {V P : Finset (Fin n)} {node : Fin n}
    (hF : Finished g V (insert node P)) (hnP : node ∉ P)
    (hch : ∀ c, ChildEdge g node c → c ∈ V ∧ c ∉ insert node P) : Finished g V P where
  path_sub := (Finset.subset_insert _ _).trans hF.path_sub
  closed b hb hbP c hc := by
    by_cases hbn : b = node
    · subst hbn
      obtain ⟨h1, h2⟩ := hch c hc
      exact ⟨h1, fun h => h2 (Finset.mem_insert_of_mem h)⟩
    · obtain ⟨h1, h2⟩ := hF.closed b hb (by simp [hbn, hbP]) c hc
      exact ⟨h1, fun h => h2 (Finset.mem_insert_of_mem h)⟩
  acyclic b hb hbP := by
    by_cases hbn : b = node
    · subst hbn
      rintro ⟨x, hx, hcyc⟩
      rcases hx.cases_head with rfl | ⟨c, hc, hcx⟩
      · obtain ⟨c, hc, hcb⟩ := TransGen.head'_iff.mp hcyc
        obtain ⟨hcV, hcP⟩ := hch c hc
        exact (hF.reach hcV hcP hcb).2 (Finset.mem_insert_self _ _)
      · obtain ⟨hcV, hcP⟩ := hch c hc
        exact hF.acyclic c hcV hcP ⟨x, hcx, hcyc⟩
    · exact hF.acyclic b hb (by simp [hbn, hbP])

theorem pushChildren_fst {node c : Fin n} {P Q : Finset (Fin n)}
    (h : (c, Q) ∈ pushChildren g node P) : ChildEdge g node c ∧ Q = insert node P := by
  simp only [pushChildren, List.mem_reverse, List.mem_map, Prod.mk.injEq] at h
  obtain ⟨c', hc', rfl, rfl⟩ := h
  exact ⟨hc', rfl⟩

theorem mem_pushChildren {node c : Fin n} {P : Finset (Fin n)} (h : ChildEdge g node c) :
    (c, insert node P) ∈ pushChildren g node P := by
  simp only [pushChildren, List.mem_reverse, List.mem_map]
  exact ⟨c, h, rfl⟩

/-- **The walk is a depth-first search.** Running a block of pairs that share the path `P` from a
state `Finished g V P` ends, if it raises nothing, in a state `Finished g V' P` where every node of
the block is finished. By induction on the number of unvisited nodes, then on the block. -/
theorem validateLoop_finished : ∀ (k : Nat) (V P V' : Finset (Fin n))
    (es : List (Fin n × Finset (Fin n))), n - V.card = k → (∀ e ∈ es, e.2 = P) →
    Finished g V P → validateLoop g V es = .ok V' →
    Finished g V' P ∧ V ⊆ V' ∧ ∀ e ∈ es, e.1 ∈ V' ∧ e.1 ∉ P := by
  intro k
  induction k using Nat.strong_induction_on with
  | _ k ihk =>
  intro V P V' es
  induction es generalizing V V' with
  | nil =>
    intro _ _ hF h
    rw [validateLoop_nil] at h
    cases h
    exact ⟨hF, subset_rfl, by simp⟩
  | cons e es ih =>
    obtain ⟨node, path⟩ := e
    intro hk hP hF h
    obtain rfl : path = P := hP _ (List.mem_cons_self _ _)
    have hP' : ∀ e ∈ es, e.2 = path := fun e he => hP e (List.mem_cons_of_mem _ he)
    by_cases hin : node ∈ path
    · rw [validateLoop_cons_path _ hin] at h; cases h
    by_cases hv : node ∈ V
    · rw [validateLoop_cons_visited _ hin hv] at h
      obtain ⟨h1, h2, h3⟩ := ih V V' hk hP' hF h
      refine ⟨h1, h2, fun e he => ?_⟩
      rcases List.mem_cons.mp he with rfl | he
      · exact ⟨h2 hv, hin⟩
      · exact h3 e he
    · rw [validateLoop_cons_fresh _ hin hv, validateLoop_append] at h
      obtain ⟨V1, h1, h2⟩ := bind_eq_ok.mp h
      have hcard := Finset.card_insert_of_not_mem hv
      have hle := Finset.card_le_univ (insert node V)
      simp only [Fintype.card_fin] at hle
      obtain ⟨F1, sub1, mem1⟩ := ihk _ (by omega) (insert node V) (insert node path) V1 _ rfl
        (fun e he => (pushChildren_fst he).2) (hF.enter hv) h1
      have F1' : Finished g V1 path := F1.leave hin fun c hc => mem1 _ (mem_pushChildren hc)
      have hle1 := Finset.card_le_card sub1
      obtain ⟨F2, sub2, mem2⟩ := ihk _ (by omega) V1 path V' es rfl hP' F1' h2
      have hnode : node ∈ V1 := F1.path_sub (Finset.mem_insert_self _ _)
      refine ⟨F2, fun x hx => sub2 (sub1 (Finset.mem_insert_of_mem hx)), fun e he => ?_⟩
      rcases List.mem_cons.mp he with rfl | he
      · exact ⟨sub2 hnode, hin⟩
      · exact mem2 e he

theorem validateDag_error {self : Fin n} {e : PlanError} (h : validateDag g self = .error e) :
    ∃ x, ReflTransGen (ChildEdge g) self x ∧ TransGen (ChildEdge g) x x ∧
      e = .circularDependencyError ("Cycle detected at " ++ (g x).id) := by
  have hs : StackOK g self [(self, ∅)] := by simp [StackOK, ReflTransGen.refl]
  cases hl : validateLoop g ∅ [(self, ∅)] with
  | error e' =>
    simp only [validateDag, hl, Except.map, Except.error.injEq] at h
    exact h ▸ validateLoop_error hs hl
  | ok V => simp [validateDag, hl, Except.map] at h

theorem not_cycleReachable_of_validateDag {self : Fin n} (h : validateDag g self = .ok ()) :
    ¬ CycleReachable g self := by
  cases hl : validateLoop g ∅ [(self, ∅)] with
  | error e => simp [validateDag, hl, Except.map] at h
  | ok V =>
    obtain ⟨hF, -, hmem⟩ := validateLoop_finished _ ∅ ∅ V _ rfl (by simp) finished_empty hl
    obtain ⟨hs, hsP⟩ := hmem _ (List.mem_singleton_self _)
    exact hF.acyclic self hs hsP

theorem validateDag_ok_of_not_cycleReachable {self : Fin n} (h : ¬ CycleReachable g self) :
    validateDag g self = .ok () := by
  cases hv : validateDag g self with
  | ok u => rfl
  | error e =>
    obtain ⟨x, hx, hcyc, -⟩ := validateDag_error hv
    exact absurd ⟨x, hx, hcyc⟩ h

/-- A graph whose children all come after their parent reaches no cycle. -/
theorem not_cycleReachable_of_lt (h : ∀ a b, ChildEdge g a b → a < b) (self : Fin n) :
    ¬ CycleReachable g self := by
  have hlt : ∀ {a b}, TransGen (ChildEdge g) a b → a < b := fun hab => by
    induction hab with
    | single hab => exact h _ _ hab
    | tail _ hbc ih => exact ih.trans (h _ _ hbc)
  rintro ⟨x, -, hx⟩
  exact lt_irrefl x (hlt hx)

/-- **`validate_dag` is exact.** It returns normally if and only if no cycle of `_children` edges is
reachable from `self`, and every exception it raises is a `CircularDependencyError` naming a node
that is reachable from `self` and lies on such a cycle. Termination is the totality of
`validateLoop`. -/
theorem validateDag_ok_iff (g : TaskGraph n) (self : Fin n) :
    (validateDag g self = .ok () ↔ ¬ CycleReachable g self) ∧
      ∀ e, validateDag g self = .error e →
        ∃ x, ReflTransGen (ChildEdge g) self x ∧ TransGen (ChildEdge g) x x ∧
          e = .circularDependencyError ("Cycle detected at " ++ (g x).id) := by
  exact ⟨⟨not_cycleReachable_of_validateDag, validateDag_ok_of_not_cycleReachable⟩,
    fun _ => validateDag_error⟩

end Qervan.Planner.ValidateDag
