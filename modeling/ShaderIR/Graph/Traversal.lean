/-!
# Walking over a graph

A graph is a successor function `next` on the nodes of a finite list.

* `search` visits everything that can be reached from the nodes it starts with, nearest first and
  each node once;
* `reversePostorder` walks depth first, successors in the order given, and lists each node before
  all nodes that were finished earlier.  The walk keeps its own stack: every frame is a node with
  the successors it has still to look at.

The nodes not yet visited get fewer with every visit, which is why both end.
-/

namespace ShaderIR.Graph

variable {α : Type} [DecidableEq α]

/-! ## 1. Breadth first -/

/-- Visits the pending nodes and whatever they lead to.  `fresh` are the nodes not yet visited; a
pending node that is not among them is passed over. -/
def visit (next : α → List α) (fresh pending : List α) : List α :=
  match pending with
  | [] => []
  | a :: rest =>
    if a ∈ fresh then a :: visit next (fresh.erase a) (rest ++ next a)
    else visit next fresh rest
termination_by (fresh.length, pending.length)
decreasing_by
  · rename_i h
    have : fresh.length ≠ 0 := fun h0 => by simp [List.eq_nil_of_length_eq_zero h0] at h
    have := List.length_erase_of_mem h
    exact Prod.Lex.left _ _ (by omega)
  · exact Prod.Lex.right _ (by simp)

/-- The nodes that can be reached from `roots`, in breadth-first order. -/
def search (next : α → List α) (nodes roots : List α) : List α := visit next nodes roots

/-! ## 2. Depth first -/

/-- The work left on a stack of frames: one step to close each and one for each open successor. -/
def stackWork : List (α × List α) → Nat
  | [] => 0
  | (_, successors) :: rest => successors.length + 1 + stackWork rest

/-- Runs a depth-first walk to its end.  `fresh` are the nodes not yet entered, `done` those already
left, the latest first. -/
def walk (next : α → List α) (fresh : List α) (stack : List (α × List α)) (done : List α) :
    List α :=
  match stack with
  | [] => done
  | (a, []) :: rest => walk next fresh rest (a :: done)
  | (a, b :: bs) :: rest =>
    if b ∈ fresh then walk next (fresh.erase b) ((b, next b) :: (a, bs) :: rest) done
    else walk next fresh ((a, bs) :: rest) done
termination_by (fresh.length, stackWork stack)
decreasing_by
  · exact Prod.Lex.right _ (by simp [stackWork])
  · rename_i h
    have : fresh.length ≠ 0 := fun h0 => by simp [List.eq_nil_of_length_eq_zero h0] at h
    have := List.length_erase_of_mem h
    exact Prod.Lex.left _ _ (by omega)
  · exact Prod.Lex.right _ (by simp [stackWork])

/-- The nodes reachable from `root`, in the reverse of the order in which a depth-first walk leaves
them. -/
def reversePostorder (next : α → List α) (nodes : List α) (root : α) : List α :=
  walk next (nodes.erase root) [(root, next root)] []

end ShaderIR.Graph
