import Qervan.Planner.Model

/-! # `visualize`: the picture of the task graph

`visualize` walks the `_children` graph from the root with a stack and a `visited` set that is
checked when a node is popped, not when it is pushed: a popped node already drawn is skipped;
otherwise it is drawn (`dot.node`), and each of its children gets an edge (`dot.edge`) and is
pushed, drawn or not. The model returns the statements of the DOT body in the order the loop writes
them; the rendering to a file (`dot.render`) is left out.

* `visualizeLoop_draws`: from any stack and `visited` set, the loop appends, once each, the blocks
  of the nodes it draws; these are the unvisited nodes reachable from the stack, and every child of
  one of them is visited or drawn.
* `visualize_body`: on every graph, cycles included, the body is, for each node reachable from the
  root through `_children` edges and for no other, once, the root first, its node statement followed
  by one edge statement per entry of its `_children`. -/

namespace Qervan.Planner.Visualize

open Relation Qervan.Planner.Model

variable {n : Nat} (g : TaskGraph n)

/-- A statement of the DOT body: `dot.node(name, shape=..., style=..., fillcolor=...)` or
`dot.edge(tail, head)`. -/
inductive DotStmt
  | node (name shape style fillcolor : String)
  | edge (tail head : String)
  deriving DecidableEq, Repr

/-- `dot.node` for a node: a rectangle for an `ANDNode` and a diamond otherwise, filled light grey
when atomic. -/
def nodeStmt (x : Fin n) : DotStmt :=
  .node (g x).id (if (g x).kind = .and then "rectangle" else "diamond")
    (if (g x).isAtomic then "filled" else "") (if (g x).isAtomic then "lightgrey" else "white")

/-- What drawing a node writes: its `dot.node`, then a `dot.edge` to each child, in order. -/
def drawNode (x : Fin n) : List DotStmt :=
  nodeStmt g x :: (g x).children.map fun child => .edge (g x).id (g child).id

/-- The `while stack` loop of `visualize`, the top of the stack first; `body` holds the statements
written so far. -/
def visualizeLoop (visited : Finset (Fin n)) (stack : List (Fin n)) (body : List DotStmt) :
    List DotStmt :=
  match stack with
  | [] => body
  | node :: stack =>
    if node ∈ visited then visualizeLoop visited stack body
    else visualizeLoop (insert node visited) ((g node).children.reverse ++ stack)
      (body ++ drawNode g node)
termination_by (n - visited.card, stack.length)
decreasing_by
  all_goals simp_wf
  · exact Prod.Lex.right _ (by omega)
  · apply Prod.Lex.left
    have h1 := Finset.card_insert_of_not_mem ‹_ ∉ visited›
    have h2 := Finset.card_lt_univ_of_not_mem ‹_ ∉ visited›
    simp only [Fintype.card_fin] at h2
    omega

/-- `visualize()` up to `dot.render`: the body of the DOT graph. -/
def visualize (root : Fin n) : List DotStmt := visualizeLoop g ∅ [root] []

variable {g}

/-- **One run of the loop.** From the set `V` and the stack `S`, the loop appends the blocks of
the nodes it draws, in drawing order, each once: these are not in `V`, are reachable from the
stack, include every stack entry not in `V` (the top first, if it is not in `V`), and every child
of one of them is in `V` or drawn. -/
theorem visualizeLoop_draws (V : Finset (Fin n)) (S : List (Fin n)) (body : List DotStmt) :
    ∃ order : List (Fin n), visualizeLoop g V S body = body ++ order.flatMap (drawNode g) ∧
      order.Nodup ∧ (∀ x ∈ order, x ∉ V) ∧
      (∀ x ∈ order, ∃ s ∈ S, ReflTransGen (ChildEdge g) s x) ∧
      (∀ s ∈ S, s ∈ V ∨ s ∈ order) ∧
      (∀ x ∈ order, ∀ c, ChildEdge g x c → c ∈ V ∨ c ∈ order) ∧
      (∀ s S', S = s :: S' → s ∉ V → order.head? = some s) := by
  induction V, S, body using visualizeLoop.induct g with
  | case1 V body => exact ⟨[], by rw [visualizeLoop]; simp, by simp⟩
  | case2 V body node S hV ih =>
    obtain ⟨order, hrun, hnd, hout, hreach, hstack, hclosed, -⟩ := ih
    refine ⟨order, by rw [visualizeLoop, if_pos hV, hrun], hnd, hout,
      fun x hx => ?_, fun s hs => ?_, hclosed, fun s S' hS hs => ?_⟩
    · obtain ⟨s, hs, hsx⟩ := hreach x hx
      exact ⟨s, List.mem_cons_of_mem _ hs, hsx⟩
    · rcases List.mem_cons.mp hs with rfl | hs
      · exact .inl hV
      · exact hstack s hs
    · obtain ⟨rfl, -⟩ := List.cons.inj hS
      exact absurd hV hs
  | case3 V body node S hV ih =>
    obtain ⟨order, hrun, hnd, hout, hreach, hstack, hclosed, -⟩ := ih
    have hchild : ∀ c, ChildEdge g node c → c ∈ (g node).children.reverse ++ S :=
      fun c hc => List.mem_append_left _ (List.mem_reverse.mpr hc)
    have hnode : node ∉ order := fun h => hout node h (Finset.mem_insert_self node V)
    -- what the rest of the run visits, seen from `V`
    have hseen : ∀ c, c ∈ insert node V ∨ c ∈ order → c ∈ V ∨ c ∈ node :: order := by
      intro c hc
      rcases hc with hc | hc
      · rcases Finset.mem_insert.mp hc with rfl | hc
        · exact .inr (List.mem_cons_self _ _)
        · exact .inl hc
      · exact .inr (List.mem_cons_of_mem _ hc)
    refine ⟨node :: order, ?_, List.nodup_cons.mpr ⟨hnode, hnd⟩, fun x hx => ?_,
      fun x hx => ?_, fun s hs => ?_, fun x hx c hc => ?_, fun s S' hS _ => ?_⟩
    · rw [visualizeLoop, if_neg hV, hrun, List.flatMap_cons, List.append_assoc]
    · rcases List.mem_cons.mp hx with rfl | hx
      · exact hV
      · exact fun h => hout x hx (Finset.mem_insert_of_mem h)
    · rcases List.mem_cons.mp hx with rfl | hx
      · exact ⟨x, List.mem_cons_self _ _, .refl⟩
      · obtain ⟨s, hs, hsx⟩ := hreach x hx
        rcases List.mem_append.mp hs with hs | hs
        · exact ⟨node, List.mem_cons_self _ _, .head (List.mem_reverse.mp hs) hsx⟩
        · exact ⟨s, List.mem_cons_of_mem _ hs, hsx⟩
    · rcases List.mem_cons.mp hs with rfl | hs
      · exact .inr (List.mem_cons_self _ _)
      · exact hseen s (hstack s (List.mem_append_right _ hs))
    · rcases List.mem_cons.mp hx with rfl | hx
      · exact hseen c (hstack c (hchild c hc))
      · exact hseen c (hclosed x hx c hc)
    · obtain ⟨rfl, -⟩ := List.cons.inj hS
      rfl

/-- **The picture.** On every graph, cycles included, `visualize` draws each node reachable from
the root through `_children` edges exactly once, the root first, and no other node; the block of a
node is its `dot.node` followed by a `dot.edge` for each entry of its `_children`. -/
theorem visualize_body (g : TaskGraph n) (root : Fin n) :
    ∃ order : List (Fin n), order.Nodup ∧ order.head? = some root ∧
      (∀ x, x ∈ order ↔ ReflTransGen (ChildEdge g) root x) ∧
      visualize g root = order.flatMap (drawNode g) := by
  obtain ⟨order, hrun, hnd, -, hreach, hstack, hclosed, hhead⟩ := visualizeLoop_draws ∅ [root] []
  have hroot : root ∈ order := (hstack root (List.mem_singleton_self _)).resolve_left (by simp)
  refine ⟨order, hnd, hhead root [] rfl (by simp), fun x => ⟨fun hx => ?_, fun hx => ?_⟩, ?_⟩
  · obtain ⟨s, hs, hsx⟩ := hreach x hx
    exact List.mem_singleton.mp hs ▸ hsx
  · induction hx with
    | refl => exact hroot
    | tail _ hc ih => exact (hclosed _ ih _ hc).resolve_left (by simp)
  · simpa [visualize] using hrun

end Qervan.Planner.Visualize
