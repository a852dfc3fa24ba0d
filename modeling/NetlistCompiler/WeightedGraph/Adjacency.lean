import NetlistCompiler.WeightedGraph

/-!
# Graphs with adjacency tables

A graph that is built step by step gives every vertex and every edge a number, and it holds two
tables with the numbers of the edges that leave and that enter each vertex. There is no result where
a number is used that is not in the graph.
-/

namespace NetlistCompiler

/-- A vertex or an edge together with its number. -/
structure Numbered (α : Type) where
  id : Nat
  item : α
  deriving Repr

/-- A directed multigraph with the edges out of and into each vertex. -/
structure AdjacencyGraph (ν ε : Type) where
  vertices : Array (Numbered (Vertex ν))
  edges : Array (Numbered (Edge ε))
  outgoing : Array (Array Nat)
  incoming : Array (Array Nat)
  deriving Repr

namespace AdjacencyGraph

variable {ν ε : Type}

/-- The graph without vertices. -/
def empty : AdjacencyGraph ν ε :=
  ⟨#[], #[], #[], #[]⟩

/-- Adds a vertex. The result is its number and the graph with it. -/
def addVertex (g : AdjacencyGraph ν ε) (weight : Int) (value : ν) : Nat × AdjacencyGraph ν ε :=
  let id := g.vertices.size
  (id, {
    vertices := g.vertices.push ⟨id, weight, value⟩
    edges := g.edges
    outgoing := g.outgoing.push #[]
    incoming := g.incoming.push #[] })

/-- Adds an edge, which is also entered in the tables. -/
def addEdge? (g : AdjacencyGraph ν ε) (source sink : Nat) (weight : Int) (value : ε) :
    Option (Nat × AdjacencyGraph ν ε) :=
  let id := g.edges.size
  if source < g.outgoing.size ∧ sink < g.incoming.size then
    some (id, {
      vertices := g.vertices
      edges := g.edges.push ⟨id, source, sink, weight, value⟩
      outgoing := g.outgoing.modify source (·.push id)
      incoming := g.incoming.modify sink (·.push id) })
  else none

/-- The edges that a table lists for a vertex. -/
def listed? (g : AdjacencyGraph ν ε) (table : Array (Array Nat)) (v : Nat) :
    Option (List (Numbered (Edge ε))) := do
  let ids ← table[v]?
  ids.toList.mapM fun id => g.edges[id]?

/-- The edges that leave a vertex. -/
def outgoingEdges? (g : AdjacencyGraph ν ε) (v : Nat) : Option (List (Numbered (Edge ε))) :=
  g.listed? g.outgoing v

/-- The edges that enter a vertex. -/
def incomingEdges? (g : AdjacencyGraph ν ε) (v : Nat) : Option (List (Numbered (Edge ε))) :=
  g.listed? g.incoming v

/-- The graph with other edge weights. -/
def reweight (g : AdjacencyGraph ν ε) (weight : Numbered (Edge ε) → Int) : AdjacencyGraph ν ε :=
  { g with edges := g.edges.map fun e => { e with item.weight := weight e } }

/-! ### Subgraphs -/

/-- Adds a vertex of another graph, whose new number is noted under its old one. -/
def copyVertex (state : Array (Option Nat) × AdjacencyGraph ν ε) (v : Numbered (Vertex ν)) :
    Option (Array (Option Nat) × AdjacencyGraph ν ε) :=
  let (renumbered, copy) := state
  if v.id < renumbered.size then
    let (id, copy) := copy.addVertex v.item.weight v.item.value
    some (renumbered.set! v.id (some id), copy)
  else none

/-- Adds an edge of another graph if both of its ends have new numbers. -/
def copyEdge (renumbered : Array (Option Nat)) (copy : AdjacencyGraph ν ε)
    (e : Numbered (Edge ε)) : Option (AdjacencyGraph ν ε) := do
  match ← renumbered[e.item.source]?, ← renumbered[e.item.sink]? with
  | some source, some sink =>
    let (_, copy) ← copy.addEdge? source sink e.item.weight e.item.value
    return copy
  | _, _ => return copy

/-- The kept vertices, and the kept edges between them. -/
def subgraph? (g : AdjacencyGraph ν ε) (keepVertex : Numbered (Vertex ν) → Bool)
    (keepEdge : Numbered (Edge ε) → Bool) : Option (AdjacencyGraph ν ε) := do
  let (renumbered, copy) ← (g.vertices.toList.filter keepVertex).foldlM copyVertex
    (Array.replicate g.vertices.size none, empty)
  (g.edges.toList.filter keepEdge).foldlM (copyEdge renumbered) copy

/-! ### Graphs without tables -/

/-- A table with a row for each of the first `order` numbers. -/
def tableOf (order : Nat) (row : Nat → List Nat) : Array (Array Nat) :=
  (Array.range order).map fun v => (row v).toArray

/-- The graph with the tables that belong to it. -/
def ofGraph (w : WeightedGraph ν ε) : AdjacencyGraph ν ε where
  vertices := w.vertices.mapIdx Numbered.mk
  edges := w.edges.mapIdx Numbered.mk
  outgoing := tableOf w.order w.outgoing
  incoming := tableOf w.order w.incoming

/-- The graph without its tables, if the ends of all edges are vertices. -/
def graph? (g : AdjacencyGraph ν ε) : Option (WeightedGraph ν ε) :=
  let vertices := g.vertices.map Numbered.item
  let edges := g.edges.map Numbered.item
  if h : ∀ e ∈ edges, e.source < vertices.size ∧ e.sink < vertices.size then
    some ⟨vertices, edges, h⟩
  else none

end AdjacencyGraph

end NetlistCompiler
