import ShaderIR.Graph.Traversal

/-!
# Dominator trees

The nodes are numbered in reverse post-order, the root being 0.  A partial tree is an array that
gives the number of the parent of each node placed so far; parents have smaller numbers.  A sweep
moves every node but the root under the nearest common ancestor of its placed predecessors, and
sweeps are repeated until one of them changes nothing.

* `meet?`: the nearest common ancestor, `none` if a node on the way is not placed;
* `sweep?`, `settle?`: one round and all rounds, `none` if a `meet?` fails or the rounds run out;
* `DominatorTree`: the outcome, with `idom?` and `strictlyDominates`.
-/

namespace ShaderIR.Graph

/-! ## 1. Trees of numbers -/

/-- The parent of each placed number. -/
abbrev Parents := Array (Option Nat)

/-- The parent of a number. -/
def Parents.parent? (up : Parents) (i : Nat) : Option Nat := up[i]?.getD none

/-- The nearest common ancestor: of two different numbers the greater one moves to its parent. -/
def Parents.meet? (up : Parents) (a b : Nat) : Option Nat :=
  if a = b then some a
  else if a < b then
    match up.parent? b with
    | some p => if p < b then up.meet? a p else none
    | none => none
  else
    match up.parent? a with
    | some p => if p < a then up.meet? p b else none
    | none => none
termination_by a + b

/-- The proper ancestors of a number, the nearest first. -/
def Parents.ancestors (up : Parents) (i : Nat) : List Nat :=
  match up.parent? i with
  | some p => if p < i then p :: up.ancestors p else []
  | none => []
termination_by i

/-- Where a node belongs: under the nearest common ancestor of those of its predecessors that are
placed.  The inner `none` says that none of them is. -/
def Parents.place? (up : Parents) (preds : List Nat) : Option (Option Nat) :=
  match preds.filter (fun p => (up.parent? p).isSome) with
  | [] => some none
  | p :: ps => (ps.foldlM (fun d q => up.meet? q d) p).map some

/-- Moves one node; says whether it moved. -/
def Parents.move? (preds : Nat → List Nat) (state : Parents × Bool) (i : Nat) :
    Option (Parents × Bool) :=
  match state.1.place? (preds i) with
  | none => none
  | some none => some state
  | some (some p) =>
    if state.1.parent? i = some p then some state
    else some (state.1.setIfInBounds i (some p), true)

/-- Moves every node of `1 ... n - 1` once, in this order. -/
def Parents.sweep? (preds : Nat → List Nat) (n : Nat) (up : Parents) : Option (Parents × Bool) :=
  ((List.range n).drop 1).foldlM (Parents.move? preds) (up, false)

/-- Sweeps until nothing moves any more, at most `rounds` times. -/
def Parents.settle? (preds : Nat → List Nat) (n : Nat) : Nat → Parents → Option Parents
  | 0, _ => none
  | rounds + 1, up =>
    match Parents.sweep? preds n up with
    | none => none
    | some (up', moved) => if moved then settle? preds n rounds up' else some up'

/-- The tree in which only the root is placed, as its own parent. -/
def Parents.rooted (n : Nat) : Parents := (Array.replicate n none).setIfInBounds 0 (some 0)

/-- The immediate dominators of the numbers below `n`.  Each round but the last moves a node, and no
node moves more than `n` times, so `n * n + 2` rounds are enough. -/
def immediate? (preds : Nat → List Nat) (n : Nat) : Option Parents :=
  Parents.settle? preds n (n * n + 2) (Parents.rooted n)

/-! ## 2. Dominators of a graph -/

variable {α : Type} [DecidableEq α]

/-- For each position in the order, the positions of the nodes that have it as a successor. -/
def predecessorTable (next : α → List α) (order : List α) : Array (List Nat) :=
  let successors := (order.map (fun a => (next a).filterMap (fun b => order.idxOf? b))).toArray
  ((List.range order.length).map (fun i =>
    (List.range order.length).filter (fun p => (successors[p]?.getD []).contains i))).toArray

/-- The dominators of the nodes that can be reached from a root. -/
structure DominatorTree (α : Type) where
  /-- The reachable nodes in reverse post-order, the root first. -/
  order : List α
  /-- The immediate dominators, as positions in the order. -/
  parents : Parents

namespace DominatorTree

/-- The tree of a graph without a root. -/
def empty : DominatorTree α := ⟨[], .empty⟩

/-- The tree of the part of a graph that can be reached from `root`. -/
def ofGraph (next : α → List α) (nodes : List α) (root : α) : DominatorTree α :=
  let order := reversePostorder next nodes root
  let preds := predecessorTable next order
  ⟨order, (immediate? (fun i => preds[i]?.getD []) order.length).getD .empty⟩

/-- The node that lies on every path from the root and is nearest to `a` among the others. -/
def idom? (t : DominatorTree α) (a : α) : Option α := do
  let i ← t.order.idxOf? a
  let p ← t.parents.parent? i
  if p < i then t.order[p]? else none

/-- Whether a node can be reached: the root can, and so can every node with a dominator. -/
def isReachable (t : DominatorTree α) (a : α) : Bool :=
  t.order.head? = some a || (t.idom? a).isSome

/-- Whether `d` is another node on every path from the root to `a`. -/
def strictlyDominates (t : DominatorTree α) (d a : α) : Bool :=
  match t.order.idxOf? a, t.order.idxOf? d with
  | some i, some j => (t.parents.ancestors i).contains j
  | _, _ => false

/-- Whether `a` can be reached and `d` is on every path to it. -/
def dominates (t : DominatorTree α) (d a : α) : Bool :=
  (a = d && t.isReachable a) || t.strictlyDominates d a

/-- The reachable nodes in the order in which a depth-first walk leaves them. -/
def postorder (t : DominatorTree α) : List α := t.order.reverse

end DominatorTree
end ShaderIR.Graph
