import Qervan.Planner.ValidateDag

/-! # `get_ancestors` and `add_child`: the insertion-time guard

`get_ancestors` collects, with a worklist and a `seen` set, the nodes reachable from `self` through
one or more `preconditions` edges (`mem_getAncestors`). Its loop stops on every graph, cycles
included: each iteration pops one entry and pushes only the ancestors it adds, so the loop runs once
for `self` and once per ancestor (`ancestorsLoopFuel_eq`, `getAncestors_terminates_exact`).
`add_child` raises `CircularDependencyError` when the new child is among them and otherwise appends
it to `_children`.

The guard reads `preconditions` only, and `add_child` writes `_children` only, so a sequence of
insertions is decided by the fixed `preconditions` graph (`addChildRun_children`): the `_children`
graph gains every edge whose child is not a `preconditions`-ancestor of its parent, cycles
included. -/

namespace Qervan.Planner.Ancestry

open Relation Qervan.Planner.Model Qervan.Planner.ValidateDag

variable {n : Nat} (g : TaskGraph n)

/-! ### `get_ancestors` -/

/-- One iteration of `for parent in current.preconditions`: a parent not yet among the ancestors
joins them and is pushed. -/
def ancestorStep (acc : Finset (Fin n) × List (Fin n)) (parent : Fin n) :
    Finset (Fin n) × List (Fin n) :=
  if parent ∈ acc.1 then acc else (insert parent acc.1, parent :: acc.2)

/-- The inner loop adds the parents to the ancestors and pushes exactly those that were new, each
once. -/
theorem foldl_ancestorStep_eq : ∀ (ps : List (Fin n)) (A : Finset (Fin n)) (S : List (Fin n)),
    ∃ new, ps.foldl ancestorStep (A, S) = (A ∪ ps.toFinset, new ++ S) ∧ new.Nodup ∧
      ∀ x, x ∈ new ↔ x ∈ ps ∧ x ∉ A
  | [], A, S => ⟨[], by simp, List.nodup_nil, by simp⟩
  | p :: ps, A, S => by
    by_cases hp : p ∈ A
    · obtain ⟨new, h, hnd, hnew⟩ := foldl_ancestorStep_eq ps A S
      refine ⟨new, ?_, hnd, fun x => ?_⟩
      · simp only [List.foldl_cons, ancestorStep, hp, if_true, h, List.toFinset_cons,
          Finset.union_insert, Finset.insert_eq_of_mem (Finset.mem_union_left _ hp)]
      · by_cases hx : x = p <;> simp_all
    · obtain ⟨new, h, hnd, hnew⟩ := foldl_ancestorStep_eq ps (insert p A) (p :: S)
      have hpnew : p ∉ new := fun hp' => ((hnew p).1 hp').2 (Finset.mem_insert_self p A)
      refine ⟨new ++ [p], ?_, hnd.append (List.nodup_singleton p) (by simpa using hpnew),
        fun x => ?_⟩
      · simp [ancestorStep, hp, h, Finset.insert_union]
      · by_cases hx : x = p <;> simp_all

/-- What the inner loop does: it only adds, every parent ends among the ancestors, the new ones are
pushed, and if anything is added the set grows. -/
theorem foldl_ancestorStep (ps : List (Fin n)) (A : Finset (Fin n)) (S : List (Fin n)) :
    let r := ps.foldl ancestorStep (A, S)
    A ⊆ r.1 ∧ (∀ p ∈ ps, p ∈ r.1) ∧ (∀ x ∈ r.1, x ∈ A ∨ x ∈ ps) ∧
      (∃ new, r.2 = new ++ S ∧ ∀ x ∈ new, x ∈ r.1) ∧ (∀ x ∈ r.1, x ∉ A → x ∈ r.2) ∧
      (r = (A, S) ∨ A.card < r.1.card) := by
  obtain ⟨new, h, -, hnew⟩ := foldl_ancestorStep_eq ps A S
  simp only [h]
  refine ⟨Finset.subset_union_left, fun p hp => by simp [hp], fun x hx => by simpa using hx,
    ⟨new, rfl, fun x hx => by simp [((hnew x).1 hx).1]⟩, fun x hx hxA => ?_, ?_⟩
  · have hx : x ∈ ps := by simpa [hxA] using hx
    exact List.mem_append_left _ ((hnew x).2 ⟨hx, hxA⟩)
  · by_cases hsub : ps.toFinset ⊆ A
    · have hnil : new = [] := List.eq_nil_iff_forall_not_mem.mpr fun x hx =>
        ((hnew x).1 hx).2 (hsub (List.mem_toFinset.mpr ((hnew x).1 hx).1))
      exact .inl (by simp [Finset.union_eq_left.mpr hsub, hnil])
    · exact .inr (Finset.card_lt_card ⟨Finset.subset_union_left,
        fun h => hsub (Finset.union_subset_iff.mp h).2⟩)

/-- The `while stack` loop of `get_ancestors`, the top of the stack first. -/
def ancestorsLoop (ancestors : Finset (Fin n)) (stack : List (Fin n)) : Finset (Fin n) :=
  match stack with
  | [] => ancestors
  | current :: stack =>
    let r := (g current).preconditions.foldl ancestorStep (ancestors, stack)
    ancestorsLoop r.1 r.2
termination_by (n - ancestors.card, stack.length)
decreasing_by
  simp_wf
  rcases (foldl_ancestorStep (g current).preconditions ancestors stack).2.2.2.2.2 with h | h
  · rw [h]; exact Prod.Lex.right _ (by simp)
  · apply Prod.Lex.left
    have hle := Finset.card_le_univ (List.foldl ancestorStep (ancestors, stack)
      (g current).preconditions).1
    simp only [Fintype.card_fin] at hle
    omega

/-- `get_ancestors()` on `self`. -/
def getAncestors (self : Fin n) : Finset (Fin n) := ancestorsLoop g ∅ [self]

/-- The same `while stack` loop allowed at most `fuel` iterations: `none` if the stack is not
empty by then. -/
def ancestorsLoopFuel : Nat → Finset (Fin n) → List (Fin n) → Option (Finset (Fin n))
  | _, ancestors, [] => some ancestors
  | 0, _, _ :: _ => none
  | fuel + 1, ancestors, current :: stack =>
    let r := (g current).preconditions.foldl ancestorStep (ancestors, stack)
    ancestorsLoopFuel fuel r.1 r.2

variable {g}

/-- The worklist invariant: ancestors are reachable, the stack holds `self` and ancestors, and a
node of either kind that is off the stack has all its preconditions among the ancestors. -/
structure Worklist (g : TaskGraph n) (root : Fin n) (A : Finset (Fin n)) (S : List (Fin n)) :
    Prop where
  reach : ∀ x ∈ A, TransGen (PrecEdge g) root x
  stack : ∀ x ∈ S, x = root ∨ x ∈ A
  closed : ∀ y, (y = root ∨ y ∈ A) → y ∉ S → ∀ p, PrecEdge g y p → p ∈ A

theorem Worklist.step {self current : Fin n} {A : Finset (Fin n)} {S : List (Fin n)}
    (hW : Worklist g self A (current :: S)) :
    let r := (g current).preconditions.foldl ancestorStep (A, S)
    Worklist g self r.1 r.2 := by
  intro r
  obtain ⟨h1, h2, h3, ⟨new, hnew, hnew'⟩, h5, -⟩ := foldl_ancestorStep (g current).preconditions A S
  have hcur : current = self ∨ current ∈ A := hW.stack current (List.mem_cons_self _ _)
  refine ⟨fun x hx => ?_, fun x hx => ?_, fun y hy hyS p hp => ?_⟩
  · rcases h3 x hx with h | h
    · exact hW.reach x h
    · rcases hcur with rfl | hc
      · exact .single h
      · exact (hW.reach current hc).tail h
  · rw [hnew] at hx
    rcases List.mem_append.mp hx with h | h
    · exact .inr (hnew' x h)
    · rcases hW.stack x (List.mem_cons_of_mem _ h) with h' | h'
      · exact .inl h'
      · exact .inr (h1 h')
  · by_cases hyc : y = current
    · subst hyc; exact h2 p hp
    · have hyA : y = self ∨ y ∈ A := by
        rcases hy with h | h
        · exact .inl h
        · by_contra hc
          exact hyS (h5 y h fun h' => hc (.inr h'))
      have hyS' : y ∉ current :: S := by
        rw [List.mem_cons, not_or]
        exact ⟨hyc, fun h => hyS (by rw [hnew]; exact List.mem_append_right _ h)⟩
      exact h1 (hW.closed y hyA hyS' p hp)

theorem ancestorsLoop_worklist {self : Fin n} (A : Finset (Fin n)) (S : List (Fin n))
    (hW : Worklist g self A S) : Worklist g self (ancestorsLoop g A S) [] := by
  induction A, S using ancestorsLoop.induct g with
  | case1 A => rw [ancestorsLoop]; exact hW
  | case2 A current S r ih => rw [ancestorsLoop]; exact ih hW.step

/-- **`get_ancestors` is exact**: it answers the nodes reachable from `self` through one or more
`preconditions` edges. -/
theorem mem_getAncestors (g : TaskGraph n) (self x : Fin n) :
    x ∈ getAncestors g self ↔ TransGen (PrecEdge g) self x := by
  have hW : Worklist g self (getAncestors g self) [] := ancestorsLoop_worklist ∅ [self]
    ⟨by simp, by simp, fun y hy hyS => by simp at hy hyS; exact absurd hy hyS⟩
  refine ⟨hW.reach x, fun h => ?_⟩
  have hclosed : ∀ y, (y = self ∨ y ∈ getAncestors g self) → ∀ p, PrecEdge g y p →
      p ∈ getAncestors g self := fun y hy => hW.closed y hy (List.not_mem_nil _)
  induction h with
  | single hp => exact hclosed _ (.inl rfl) _ hp
  | tail _ hp ih => exact hclosed _ (.inr ih) _ hp

instance (g : TaskGraph n) : DecidableRel (TransGen (PrecEdge g)) := fun a b =>
  decidable_of_iff _ (mem_getAncestors g a b)

/-! ### Termination of `get_ancestors` -/

theorem subset_ancestorsLoop (A : Finset (Fin n)) (S : List (Fin n)) : A ⊆ ancestorsLoop g A S := by
  induction A, S using ancestorsLoop.induct g with
  | case1 A => rw [ancestorsLoop]
  | case2 A current S r =>
    rename_i ih
    rw [ancestorsLoop]
    exact (foldl_ancestorStep (g current).preconditions A S).1.trans ih

/-- Every iteration pops one entry and pushes the ancestors it adds, so the stack's length plus
the number of ancestors still to come falls by one: that many iterations empty the stack. -/
theorem ancestorsLoopFuel_eq (fuel : Nat) (A : Finset (Fin n)) (S : List (Fin n)) :
    ancestorsLoopFuel g fuel A S =
      if S.length + (ancestorsLoop g A S \ A).card ≤ fuel then some (ancestorsLoop g A S)
      else none := by
  induction A, S using ancestorsLoop.induct g generalizing fuel with
  | case1 A => simp [ancestorsLoopFuel, ancestorsLoop]
  | case2 A current S r ih =>
    obtain ⟨new, hr, hnd, hnew⟩ := foldl_ancestorStep_eq (g current).preconditions A S
    have hA : A ⊆ r.1 := (foldl_ancestorStep (g current).preconditions A S).1
    have hR : r.1 ⊆ ancestorsLoop g r.1 r.2 := subset_ancestorsLoop _ _
    have hnew_card : new.length = (r.1 \ A).card := by
      rw [← List.toFinset_card_of_nodup hnd]
      congr 1
      ext x
      by_cases hx : x ∈ A <;> simp [r, hr, hnew, hx]
    have hcount : r.2.length + (ancestorsLoop g r.1 r.2 \ r.1).card + 1 =
        (current :: S).length + (ancestorsLoop g r.1 r.2 \ A).card := by
      have hlen : r.2.length = new.length + S.length := by simp [r, hr]
      rw [hlen, hnew_card, List.length_cons, Finset.card_sdiff hR, Finset.card_sdiff hA,
        Finset.card_sdiff (hA.trans hR)]
      have := Finset.card_le_card hA
      have := Finset.card_le_card hR
      omega
    have hL : ancestorsLoop g A (current :: S) = ancestorsLoop g r.1 r.2 := by rw [ancestorsLoop]
    cases fuel with
    | zero => rw [ancestorsLoopFuel, if_neg (by simp)]
    | succ fuel =>
      rw [ancestorsLoopFuel, ih fuel, hL]
      exact if_congr (by omega) rfl rfl

/-- **`get_ancestors` terminates and is exact.** On every graph of `preconditions` edges, cycles and
nodes that list themselves included, the `while stack` loop from `self` empties its stack after
exactly one iteration for `self` and one per ancestor, so within `n + 1`; it returns the nodes
reachable from `self` through one or more edges, among them `self` exactly when `self` lies on a
cycle. -/
theorem getAncestors_terminates_exact (g : TaskGraph n) (self : Fin n) :
    (∀ fuel, ancestorsLoopFuel g fuel ∅ [self] =
      if (getAncestors g self).card + 1 ≤ fuel then some (getAncestors g self) else none) ∧
    ancestorsLoopFuel g (n + 1) ∅ [self] = some (getAncestors g self) ∧
    (∀ x, x ∈ getAncestors g self ↔ TransGen (PrecEdge g) self x) ∧
    (self ∈ getAncestors g self ↔ TransGen (PrecEdge g) self self) := by
  have hfuel : ∀ fuel, ancestorsLoopFuel g fuel ∅ [self] =
      if (getAncestors g self).card + 1 ≤ fuel then some (getAncestors g self) else none :=
    fun fuel => by simp [ancestorsLoopFuel_eq, getAncestors, add_comm]
  refine ⟨hfuel, ?_, mem_getAncestors g self, mem_getAncestors g self self⟩
  rw [hfuel, if_pos]
  simpa using Finset.card_le_univ (getAncestors g self)

/-- A node that lists itself is its own ancestor, found in its second iteration. -/
example : ancestorsLoopFuel (fun _ : Fin 1 => { TaskNode.init .and "a" with preconditions := [0] })
      1 ∅ [0] = none ∧
    ancestorsLoopFuel (fun _ : Fin 1 => { TaskNode.init .and "a" with preconditions := [0] })
      2 ∅ [0] = some {0} := by
  decide

/-! ### `add_child` -/

/-- The graph after `self._children.append(node)`. -/
def appendChild (g : TaskGraph n) (self node : Fin n) : TaskGraph n :=
  Function.update g self { g self with children := (g self).children ++ [node] }

/-- `add_child(node)` on `self`. -/
def addChild (g : TaskGraph n) (self node : Fin n) : Except PlanError (TaskGraph n) :=
  if node ∈ getAncestors g self then
    .error (.circularDependencyError
      ("Circular reference detected adding " ++ (g node).id ++ " to " ++ (g self).id))
  else .ok (appendChild g self node)

/-- A caller's sequence of `parent.add_child(child)` calls, each exception caught: a call that
raises leaves the graph as it was. -/
def addChildRun (g : TaskGraph n) : List (Fin n × Fin n) → TaskGraph n
  | [] => g
  | (parent, child) :: calls =>
    match addChild g parent child with
    | .ok g' => addChildRun g' calls
    | .error _ => addChildRun g calls

@[simp] theorem precEdge_appendChild (self node : Fin n) :
    PrecEdge (appendChild g self node) = PrecEdge g := by
  funext a b
  by_cases h : a = self
  · subst h; simp [PrecEdge, appendChild]
  · simp [PrecEdge, appendChild, h]

theorem appendChild_apply (self node x : Fin n) :
    appendChild g self node x =
      if x = self then { g x with children := (g x).children ++ [node] } else g x := by
  by_cases h : x = self
  · subst h; simp [appendChild]
  · simp [appendChild, h]

/-- The guard is the `preconditions` reachability of `mem_getAncestors`. -/
theorem addChild_eq (self node : Fin n) :
    addChild g self node =
      if TransGen (PrecEdge g) self node then
        .error (.circularDependencyError
          ("Circular reference detected adding " ++ (g node).id ++ " to " ++ (g self).id))
      else .ok (appendChild g self node) := by
  simp only [addChild, mem_getAncestors]

/-- **The guard never sees `_children`.** `parent.add_child(child)` raises exactly when `child` is
reachable from `parent` through `preconditions` edges, and otherwise only appends `child`; since no
call changes `preconditions`, after any sequence of calls every node keeps its attributes and its
children are the old ones followed, in call order, by the children of the calls on it whose child
is not a `preconditions`-ancestor of it. -/
theorem addChildRun_children (g : TaskGraph n) :
    (∀ parent child, addChild g parent child =
      if TransGen (PrecEdge g) parent child then
        .error (.circularDependencyError
          ("Circular reference detected adding " ++ (g child).id ++ " to " ++ (g parent).id))
      else .ok (appendChild g parent child)) ∧
    ∀ calls x, addChildRun g calls x =
      { g x with children := (g x).children ++
          ((calls.filter fun c => c.1 = x ∧ ¬ TransGen (PrecEdge g) c.1 c.2).map Prod.snd) } := by
  refine ⟨addChild_eq, fun calls => ?_⟩
  induction calls generalizing g with
  | nil => intro x; simp [addChildRun]
  | cons c calls ih =>
    obtain ⟨parent, child⟩ := c
    intro x
    by_cases h : TransGen (PrecEdge g) parent child
    · have hrun : addChildRun g ((parent, child) :: calls) = addChildRun g calls := by
        rw [addChildRun, addChild_eq, if_pos h]
      rw [hrun, ih]
      simp [List.filter_cons, h]
    · have hrun : addChildRun g ((parent, child) :: calls) =
          addChildRun (appendChild g parent child) calls := by
        rw [addChildRun, addChild_eq, if_neg h]
      rw [hrun, ih]
      simp only [precEdge_appendChild, appendChild_apply]
      by_cases hx : x = parent
      · subst hx; simp [List.filter_cons, h]
      · simp [List.filter_cons, hx, Ne.symm hx]

/-! ### Insertions close cycles -/

/-- One `ANDNode("a")`: no preconditions, no children. -/
def loneNode : TaskGraph 1 := fun _ => TaskNode.init .and "a"

/-- `a.add_child(a)` passes the guard, and `validate_dag` then raises on the graph it built. -/
theorem addChild_self_loop :
    ∃ g', addChild loneNode 0 0 = .ok g' ∧
      validateDag g' 0 = .error (.circularDependencyError "Cycle detected at a") := by
  have hnot : ¬ TransGen (PrecEdge loneNode) 0 0 := fun h => by
    obtain ⟨b, hb, -⟩ := TransGen.head'_iff.mp h
    simp [PrecEdge, loneNode, TaskNode.init] at hb
  refine ⟨appendChild loneNode 0 0, by rw [addChild_eq, if_neg hnot], ?_⟩
  have h0 : (0 : Fin 1) ∉ (∅ : Finset (Fin 1)) := Finset.not_mem_empty _
  rw [validateDag, validateLoop_cons_fresh _ h0 h0]
  simp [pushChildren, appendChild, loneNode, TaskNode.init, validateLoop_cons_path, Except.map]

end Qervan.Planner.Ancestry
