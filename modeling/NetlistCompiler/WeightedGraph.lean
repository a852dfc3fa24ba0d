import NetlistCompiler.BuildError

/-!
# Weighted graphs

A directed multigraph with integer weights on vertices and edges. Vertices and edges are numbered
in the order in which they were added, and the ends of every edge are vertices of the graph.
-/

namespace NetlistCompiler

/-- A vertex with its weight and a value of the user. -/
structure Vertex (ν : Type) where
  weight : Int
  value : ν
  deriving Repr

/-- An edge with its weight and a value of the user. -/
structure Edge (ε : Type) where
  source : Nat
  sink : Nat
  weight : Int
  value : ε
  deriving Repr

/-- Why a graph is no circuit, or cannot be ordered. -/
inductive GraphError where
  | cycle (remaining total : Nat)
  | combinationalLoop (nodes : Nat)
  | negativeDelay (node : Nat) (weight : Int)
  | negativeRegisters (edge : Nat) (weight : Int)
  | internal (cause : String)
  deriving Repr, DecidableEq

/-- The text of an error. -/
def GraphError.message : GraphError → String
  | cycle remaining total =>
    s!"graph contains a cycle: {remaining} of {total} nodes could not be ordered"
  | combinationalLoop nodes => s!"combinational loop through {nodes} node(s)"
  | negativeDelay node weight => s!"node {node} has negative delay {weight}"
  | negativeRegisters edge weight => s!"edge {edge} has negative register count {weight}"
  | internal cause => internalErrorText cause

/-- A directed multigraph with weighted vertices and edges. -/
structure WeightedGraph (ν ε : Type) where
  vertices : Array (Vertex ν)
  edges : Array (Edge ε)
  edges_inRange : ∀ e ∈ edges, e.source < vertices.size ∧ e.sink < vertices.size

namespace WeightedGraph

variable {ν ε : Type}

/-- The graph without vertices. -/
def empty : WeightedGraph ν ε :=
  ⟨#[], #[], by simp⟩

/-- The number of vertices. -/
def order (g : WeightedGraph ν ε) : Nat :=
  g.vertices.size

/-- Adds a vertex, which gets the next number. -/
def addVertex (g : WeightedGraph ν ε) (weight : Int) (value : ν) : WeightedGraph ν ε where
  vertices := g.vertices.push ⟨weight, value⟩
  edges := g.edges
  edges_inRange e he := by
    have := g.edges_inRange e he
    simp only [Array.size_push]
    omega

/-- Adds an edge, which gets the next number, if its ends are vertices of the graph. -/
def addEdge? (g : WeightedGraph ν ε) (source sink : Nat) (weight : Int) (value : ε) :
    Option (WeightedGraph ν ε) :=
  if h : source < g.vertices.size ∧ sink < g.vertices.size then
    some {
      vertices := g.vertices
      edges := g.edges.push ⟨source, sink, weight, value⟩
      edges_inRange := by
        intro e he
        rcases Array.mem_push.1 he with he | rfl
        · exact g.edges_inRange e he
        · exact h }
  else none

/-- The numbers of the edges that satisfy a condition, in order. -/
def edgesWhere (g : WeightedGraph ν ε) (p : Edge ε → Bool) : List Nat :=
  (List.range g.edges.size).filter fun i => (g.edges[i]?.map p).getD false

/-- The numbers of the edges that leave a vertex. -/
def outgoing (g : WeightedGraph ν ε) (v : Nat) : List Nat :=
  g.edgesWhere fun e => e.source == v

/-- The numbers of the edges that enter a vertex. -/
def incoming (g : WeightedGraph ν ε) (v : Nat) : List Nat :=
  g.edgesWhere fun e => e.sink == v

/-- The graph with other edge weights. -/
def reweight (g : WeightedGraph ν ε) (weight : Edge ε → Int) : WeightedGraph ν ε where
  vertices := g.vertices
  edges := g.edges.map fun e => { e with weight := weight e }
  edges_inRange := by
    intro e he
    obtain ⟨e', he', rfl⟩ := Array.mem_map.1 he
    exact g.edges_inRange e' he'

/-- Whether a vertex with this number exists and satisfies a condition. -/
def keeps (g : WeightedGraph ν ε) (p : Vertex ν → Bool) (v : Nat) : Bool :=
  (g.vertices[v]?.map p).getD false

/-- The number of kept vertices before a vertex. -/
def rank (g : WeightedGraph ν ε) (p : Vertex ν → Bool) (v : Nat) : Nat :=
  (g.vertices.toList.take v).countP p

theorem rank_lt (g : WeightedGraph ν ε) (p : Vertex ν → Bool) (v : Nat) (h : g.keeps p v = true) :
    g.rank p v < (g.vertices.filter p).size := by
  have hv : v < g.vertices.size := by
    by_cases hv : v < g.vertices.size
    · exact hv
    · simp [keeps, Array.getElem?_eq_none (Nat.le_of_not_lt hv)] at h
  have hp : p g.vertices[v] = true := by simpa [keeps, hv] using h
  have hsplit : g.vertices.toList = g.vertices.toList.take v ++ g.vertices.toList.drop v :=
    (List.take_append_drop v _).symm
  have hdrop : g.vertices.toList.drop v = g.vertices[v] :: g.vertices.toList.drop (v + 1) := by
    rw [List.drop_eq_getElem_cons (by simpa using hv)]
    simp
  have hsize : (g.vertices.filter p).size = g.vertices.toList.countP p := by
    rw [← Array.length_toList, Array.toList_filter, List.countP_eq_length_filter]
  rw [hsize, rank]
  conv => rhs; rw [hsplit]
  rw [List.countP_append, hdrop, List.countP_cons_of_pos hp]
  omega

/-- The kept vertices, renumbered in order, and the kept edges between them. -/
def subgraph (g : WeightedGraph ν ε) (keepVertex : Vertex ν → Bool) (keepEdge : Edge ε → Bool) :
    WeightedGraph ν ε where
  vertices := g.vertices.filter keepVertex
  edges := (g.edges.filter fun e =>
      keepEdge e && g.keeps keepVertex e.source && g.keeps keepVertex e.sink).map
    fun e => { e with source := g.rank keepVertex e.source, sink := g.rank keepVertex e.sink }
  edges_inRange := by
    intro e he
    obtain ⟨e', he', rfl⟩ := Array.mem_map.1 he
    obtain ⟨_, hk⟩ := Array.mem_filter.1 he'
    simp only [Bool.and_eq_true] at hk
    exact ⟨g.rank_lt _ _ hk.1.2, g.rank_lt _ _ hk.2⟩

/-! ### Topological order -/

/-- The number of edges out of `keep` into each vertex. -/
def inDegrees (g : WeightedGraph ν ε) (keep : Edge ε → Bool) : Array Nat :=
  g.edges.foldl (fun degrees e => if keep e then degrees.modify e.sink (· + 1) else degrees)
    (Array.replicate g.order 0)

/-- Takes an edge away from the degree of its sink, which is released if no other edge is left. -/
def release (state : Array Nat × List Nat) (e : Edge ε) : Array Nat × List Nat :=
  let degree := state.1.getD e.sink 0 - 1
  (state.1.set! e.sink degree, if degree = 0 then state.2 ++ [e.sink] else state.2)

/-- Takes vertices from the front of a queue, each of which releases vertices to its end. -/
def drain (g : WeightedGraph ν ε) (keep : Edge ε → Bool) :
    Nat → List Nat → Array Nat → List Nat
  | 0, _, _ => []
  | _ + 1, [], _ => []
  | fuel + 1, v :: queue, degrees =>
    let leaving := g.edges.toList.filter fun e => e.source == v && keep e
    let (degrees, queue) := leaving.foldl release (degrees, queue)
    v :: g.drain keep fuel queue degrees

/-- The vertices without an edge out of `keep` into them come first; after that every vertex
follows when the last such edge is taken away. -/
def topologicalSort (g : WeightedGraph ν ε) (keep : Edge ε → Bool) :
    Except GraphError (List Nat) :=
  let degrees := g.inDegrees keep
  let initial := (List.range g.order).filter fun v => degrees.getD v 0 == 0
  let sorted := g.drain keep g.order initial degrees
  if sorted.length = g.order then .ok sorted
  else .error (.cycle (g.order - sorted.length) g.order)

/-! ### Shortest paths -/

section

variable {ω : Type} (edgeWeight : Edge ε → ω) (compare : ω → ω → Ordering) (add : ω → ω → ω)

/-- Offers the sink of an edge the way through the edge. The flag tells whether a distance has
changed. -/
def relax (state : Array (Option ω) × Bool) (e : Edge ε) : Array (Option ω) × Bool :=
  match state.1.getD e.source none with
  | none => state
  | some start =>
    let candidate := add start (edgeWeight e)
    let better : Bool := match state.1.getD e.sink none with
      | none => true
      | some current => compare candidate current == .lt
    if better then (state.1.set! e.sink (some candidate), true) else state

/-- Offers every edge in turn, at most `rounds` times over, until nothing changes. -/
def relaxRounds (g : WeightedGraph ν ε) : Nat → Array (Option ω) → Array (Option ω)
  | 0, distances => distances
  | rounds + 1, distances =>
    let (next, changed) := g.edges.foldl (relax edgeWeight compare add) (distances, false)
    if changed then g.relaxRounds rounds next else next

/-- The least distance of every vertex from a root, `none` where there is no way. Distances are
compared and added as the caller says; no cycle may make a distance less. -/
def shortestPaths (g : WeightedGraph ν ε) (root : Nat) (zero : ω) : Array (Option ω) :=
  g.relaxRounds edgeWeight compare add (g.order - 1)
    ((Array.replicate g.order none).set! root (some zero))

end

end WeightedGraph

end NetlistCompiler
