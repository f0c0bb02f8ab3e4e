import ShaderIR.Reachability

/-!
# Flow graphs

The graph of the ordinary branches of a function.  It is built edge by edge, block after block in
layout order; both the successors and the predecessors of a block stand in the order in which they
were first met, each once.  Merge declarations and phis make no edges.
-/

namespace ShaderIR

/-- Block keys are ordered by their place in the arena. -/
instance : LT BlockKey := ⟨fun a b => a.slot < b.slot⟩

instance : DecidableLT BlockKey := fun a b => inferInstanceAs (Decidable (a.slot < b.slot))

instance : StrictOrder BlockKey where
  irrefl a := UInt32.lt_irrefl a.slot
  trans hab hbc := UInt32.lt_trans hab hbc
  connected a b := by
    rcases StrictOrder.connected a.slot b.slot with h | h | h
    · exact .inl h
    · exact .inr (.inl (by cases a; cases b; cases h; rfl))
    · exact .inr (.inr h)

/-- The neighbours of a block. -/
structure FlowNode where
  /-- The blocks that branch to it. -/
  predecessors : List BlockKey
  /-- The blocks it branches to. -/
  successors : List BlockKey
deriving DecidableEq, Repr

/-- The neighbours of every block. -/
structure FlowGraph where
  /-- The node of each block. -/
  nodes : SortedMap BlockKey FlowNode

namespace FlowGraph

/-- Adds an element to the end of a list that does not have it. -/
def addNew (b : BlockKey) (bs : List BlockKey) : List BlockKey :=
  if b ∈ bs then bs else bs ++ [b]

/-- The node of a block, without neighbours if it has none. -/
def node (g : FlowGraph) (b : BlockKey) : FlowNode := (g.nodes.get? b).getD ⟨[], []⟩

/-- The blocks that branch to a block, in layout order. -/
def predecessors (g : FlowGraph) (b : BlockKey) : List BlockKey := (g.node b).predecessors

/-- The blocks a block branches to, in operand order. -/
def successors (g : FlowGraph) (b : BlockKey) : List BlockKey := (g.node b).successors

/-- Whether `pred` branches to `b`. -/
def isPredecessor (g : FlowGraph) (pred b : BlockKey) : Bool := (g.predecessors b).contains pred

/-- Adds an edge. -/
def addEdge (g : FlowGraph) (source target : BlockKey) : FlowGraph :=
  let out := g.node source
  let g : FlowGraph :=
    ⟨g.nodes.insert source { out with successors := addNew target out.successors }⟩
  let into := g.node target
  ⟨g.nodes.insert target { into with predecessors := addNew source into.predecessors }⟩

/-- Adds the edges that leave a block. -/
def addBlock (f : Function) (g : FlowGraph) (b : BlockKey) : FlowGraph :=
  (f.resolve (f.targets b)).foldl (fun g target => g.addEdge b target) g

/-- The flow graph of a function. -/
def ofFunction (f : Function) : FlowGraph := f.layout.foldl (addBlock f) ⟨SortedMap.empty⟩

end FlowGraph

/-- The flow graph, refused where the targets of a block cannot be read. -/
def Function.readFlowGraph (f : Function) : Except Fault FlowGraph := do
  f.requireReadable f.layout
  .ok (FlowGraph.ofFunction f)

end ShaderIR
