import Qervan.Dict
import Mathlib.Algebra.Order.Ring.Rat
import Mathlib.Data.Fintype.Card
import Mathlib.Logic.Relation

/-! # The planner's data model

`planner.py` builds a graph of `TaskNode` objects that refer to each other through the lists
`preconditions` and `_children`, and compares them by identity (`in` on sets and lists). We keep the
objects of one run in an arena: a graph of `n` nodes is a function on `Fin n`, a reference is an
index, identity is equality of indices, and a graph is finite by its type.

* `Dict String Int`: a Python `dict[str, int]`, the resource maps.
* `TaskNode`: the attributes `__init__` sets, with `kind` for the class (`ANDNode`, `ORNode`,
  `AtomicNode`; `TaskNode` itself is abstract).
* `PlanError`: the exceptions the planner raises or lets escape, `PlanningResult` its answer.
* `ChildEdge`, `PrecEdge`: the two edge relations; `CycleReachable g a`: a node reachable from `a`
  through `_children` edges lies on a cycle of them.

Costs and risks are Python floats; we read them as exact rationals. -/

namespace Qervan.Planner.Model

open Relation

/-! ### Task nodes -/

/-- The concrete subclasses of `TaskNode`. -/
inductive NodeKind
  | and
  | or
  | atomic
  deriving DecidableEq, Repr

/-- The class name Python prints in an `AttributeError`. -/
def NodeKind.className : NodeKind → String
  | .and => "ANDNode"
  | .or => "ORNode"
  | .atomic => "AtomicNode"

/-- A `TaskNode` object of a graph of `n` nodes: `_state` is `state`, `_children` is `children`. -/
structure TaskNode (n : Nat) where
  kind : NodeKind
  id : String
  preconditions : List (Fin n)
  resources : Dict String Int
  cost : ℚ
  risk : ℚ
  state : String
  children : List (Fin n)

/-- `__init__`: `preconditions or []`, `resources or {}`, state `"PENDING"`, no children. -/
def TaskNode.init {n : Nat} (kind : NodeKind) (taskId : String) (preconditions : List (Fin n) := [])
    (resources : Dict String Int := Dict.empty) (cost : ℚ := 0) (risk : ℚ := 0) : TaskNode n where
  kind := kind
  id := taskId
  preconditions := preconditions
  resources := resources
  cost := cost
  risk := risk
  state := "PENDING"
  children := []

/-- `is_atomic()`: true for `AtomicNode` only. -/
def TaskNode.isAtomic {n : Nat} (t : TaskNode n) : Bool := t.kind = .atomic

/-- The objects of one run, by index. -/
abbrev TaskGraph (n : Nat) := Fin n → TaskNode n

/-! ### Exceptions and results -/

/-- The exceptions that can leave a planner call. The first three are `PlanException` and its two
subclasses; the others are Python's own, raised by the code's slips. -/
inductive PlanError
  | circularDependencyError (msg : String)
  | resourceConflictError (msg : String)
  | planException (msg : String)
  | keyError (key : String)
  | attributeError (msg : String)
  | indexError (msg : String)
  | typeError (msg : String)
  deriving DecidableEq, Repr

/-- Caught by `except ResourceConflictError`. -/
def PlanError.isResourceConflict : PlanError → Bool
  | .resourceConflictError _ => true
  | _ => false

@[simp] theorem bind_ok_eq {α β : Type} (a : α) (f : α → Except PlanError β) :
    (Except.ok a : Except PlanError α) >>= f = f a := rfl

theorem bind_eq_ok {α β : Type} {x : Except PlanError α} {f : α → Except PlanError β} {b : β} :
    x >>= f = .ok b ↔ ∃ a, x = .ok a ∧ f a = .ok b := by
  cases x <;> simp [bind, Except.bind]

theorem bind_eq_error {α β : Type} {x : Except PlanError α} {f : α → Except PlanError β}
    {e : PlanError} : x >>= f = .error e ↔ x = .error e ∨ ∃ a, x = .ok a ∧ f a = .error e := by
  cases x <;> simp [bind, Except.bind]

/-- A loop of `Except` steps keeps what every step keeps. -/
theorem foldlM_invariant {α β : Type} {f : β → α → Except PlanError β} (I : β → Prop) :
    ∀ (l : List α) (b b' : β), (∀ a ∈ l, ∀ x y, I x → f x a = .ok y → I y) → I b →
      l.foldlM f b = .ok b' → I b'
  | [], b, b', _, hb, h => by cases h; exact hb
  | a :: l, b, b', hf, hb, h => by
    rw [List.foldlM_cons] at h
    obtain ⟨b1, h1, h2⟩ := bind_eq_ok.mp h
    exact foldlM_invariant I l b1 b' (fun a ha => hf a (List.mem_cons_of_mem _ ha))
      (hf a (List.mem_cons_self _ _) b b1 hb h1) h2

/-- A loop of `Except` steps that keep an invariant raises only at a step started from a state
that has it. -/
theorem foldlM_error_of_invariant {α β : Type} {f : β → α → Except PlanError β} (I : β → Prop) :
    ∀ (l : List α) (b : β) (e : PlanError), (∀ a ∈ l, ∀ x y, I x → f x a = .ok y → I y) → I b →
      l.foldlM f b = .error e → ∃ a ∈ l, ∃ x, I x ∧ f x a = .error e
  | [], _, _, _, _, h => by cases h
  | a :: l, b, e, hf, hb, h => by
    rw [List.foldlM_cons] at h
    rcases bind_eq_error.mp h with h | ⟨b', hb', h⟩
    · exact ⟨a, List.mem_cons_self _ _, b, hb, h⟩
    · obtain ⟨a', ha', x, hx, hx'⟩ := foldlM_error_of_invariant I l b' e
        (fun a ha => hf a (List.mem_cons_of_mem _ ha)) (hf a (List.mem_cons_self _ _) b b' hb hb') h
      exact ⟨a', List.mem_cons_of_mem _ ha', x, hx, hx'⟩

/-- A loop of `Except` steps raises only what some step raises. -/
theorem foldlM_error {α β : Type} {f : β → α → Except PlanError β} (P : PlanError → Prop)
    (hf : ∀ b a e, f b a = .error e → P e) (l : List α) (b : β) (e : PlanError)
    (h : l.foldlM f b = .error e) : P e := by
  obtain ⟨a, -, x, -, hx⟩ :=
    foldlM_error_of_invariant (fun _ => True) l b e (fun _ _ _ _ _ _ => trivial) trivial h
  exact hf x a e hx

/-- `PlanningResult`. -/
structure PlanningResult (n : Nat) where
  sequence : List (Fin n)
  resourceUsage : Dict String Int
  cost : ℚ
  riskFactor : ℚ

/-! ### Edges -/

variable {n : Nat}

/-- `b` is in `a._children`. -/
def ChildEdge (g : TaskGraph n) (a b : Fin n) : Prop := b ∈ (g a).children

/-- `b` is in `a.preconditions`. -/
def PrecEdge (g : TaskGraph n) (a b : Fin n) : Prop := b ∈ (g a).preconditions

/-- Some node reachable from `a` through `_children` edges lies on a cycle of them. -/
def CycleReachable (g : TaskGraph n) (a : Fin n) : Prop :=
  ∃ x, ReflTransGen (ChildEdge g) a x ∧ TransGen (ChildEdge g) x x

end Qervan.Planner.Model
