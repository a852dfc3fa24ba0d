import NetlistCompiler.Arithmetic
import NetlistCompiler.WeightedGraph

/-!
# Synchronous circuits

A circuit is a weighted graph whose vertices are combinational elements and whose edges are
connections between them. The weight of a vertex is its delay and the weight of an edge the number
of registers on the connection; neither is negative, and every cycle has a register. The
combinational delay of a vertex is the largest total delay of a way without registers that ends at
it, and the clock period is the largest combinational delay.
-/

namespace NetlistCompiler

/-- A graph of non-negative weights without a cycle of register-free edges. -/
structure Circuit (ν ε : Type) where
  graph : WeightedGraph ν ε
  delay_nonneg : ∀ v ∈ graph.vertices, 0 ≤ v.weight
  registers_nonneg : ∀ e ∈ graph.edges, 0 ≤ e.weight
  sortable : ∃ sorted, graph.topologicalSort (fun e => e.weight == 0) = .ok sorted

namespace Circuit

variable {ν ε : Type}

/-- The circuit of a graph, or the first reason against it: a negative delay, a negative number of
registers, a cycle without registers. -/
def ofGraph (g : WeightedGraph ν ε) : Except GraphError (Circuit ν ε) :=
  match hv : g.vertices.findIdx? fun v => v.weight < 0 with
  | some i => .error (.negativeDelay i ((g.vertices[i]?.map Vertex.weight).getD 0))
  | none =>
    match he : g.edges.findIdx? fun e => e.weight < 0 with
    | some i => .error (.negativeRegisters i ((g.edges[i]?.map Edge.weight).getD 0))
    | none =>
      match hs : g.topologicalSort fun e => e.weight == 0 with
      | .error (.cycle remaining _) => .error (.combinationalLoop remaining)
      | .error e => .error e
      | .ok sorted => .ok {
          graph := g
          delay_nonneg := by
            intro v hm
            simpa using Array.findIdx?_eq_none_iff.1 hv v hm
          registers_nonneg := by
            intro e hm
            simpa using Array.findIdx?_eq_none_iff.1 he e hm
          sortable := ⟨sorted, hs⟩ }

/-- The largest of some delays, 0 if there are none. -/
def largest (delays : List Int) : Int :=
  delays.max?.getD 0

/-- Sets the delay of a vertex, given those of the vertices before it: its own delay after the
latest arrival over a register-free edge. -/
def setDelay (a : Arithmetic) (g : WeightedGraph ν ε) (registers : Edge ε → Int)
    (delays : Array Int) (v : Nat) : Array Int :=
  let arrivals := (g.edges.toList.filter fun e => e.sink == v && registers e == 0).map fun e =>
    delays.getD e.source 0
  delays.set! v (a.fit (largest arrivals + (g.vertices[v]?.map Vertex.weight).getD 0))

/-- The combinational delays of all vertices if edges have the given numbers of registers. -/
def delaysWith (c : Circuit ν ε) (a : Arithmetic) (registers : Edge ε → Int) :
    Except GraphError (Array Int) := do
  let sorted ← c.graph.topologicalSort fun e => registers e == 0
  return sorted.foldl (setDelay a c.graph registers) (Array.replicate c.graph.order 0)

/-- The combinational delays of all vertices. -/
def delays (c : Circuit ν ε) (a : Arithmetic) : Except GraphError (Array Int) :=
  c.delaysWith a Edge.weight

/-- The clock period. -/
def period (c : Circuit ν ε) (a : Arithmetic) : Except GraphError Int := do
  return largest (← c.delays a).toList

/-- Registers and negated delay on the way through an edge, without its sink. -/
def pathWeight (g : WeightedGraph ν ε) (e : Edge ε) : Int × Int :=
  (e.weight, -((g.vertices[e.source]?.map Vertex.weight).getD 0))

/-- Fewer registers come first, then more delay. -/
def comparePaths (a b : Int × Int) : Ordering :=
  (compare a.1 b.1).then (compare a.2 b.2)

/-- Registers are counted exactly, delays are added. -/
def addPaths (a : Arithmetic) (x y : Int × Int) : Int × Int :=
  (x.1 + y.1, a.fit (x.2 + y.2))

/-- For every vertex that can be reached from a root, the largest delay of the ways to it with the
fewest registers. -/
def periodsFrom (c : Circuit ν ε) (a : Arithmetic) (root : Nat) : List Int :=
  let distances := c.graph.shortestPaths (pathWeight c.graph) comparePaths (addPaths a) root (0, 0)
  (distances.toList.zip c.graph.vertices.toList).filterMap fun (distance, v) =>
    distance.map fun (_, delay) => a.fit (v.weight - delay)

/-- Ascending and without repetition. -/
def sortedDistinct (ns : List Int) : List Int :=
  (ns.mergeSort fun a b => a ≤ b).eraseReps

/-- Every clock period that moving registers can possibly lead to. -/
def possiblePeriods (c : Circuit ν ε) (a : Arithmetic) : List Int :=
  sortedDistinct ((List.range c.graph.order).flatMap (c.periodsFrom a))

end Circuit

end NetlistCompiler
