import NetlistCompiler.WeightedGraph

/-!
# Weighted graphs in the DOT language
-/

namespace NetlistCompiler

namespace WeightedGraph

/-- A text inside the quotes of a DOT string. -/
def dotEscape (s : String) : String :=
  String.ofList (s.toList.flatMap fun c => if c == '\\' || c == '"' then ['\\', c] else [c])

/-- The graph in the DOT language. Vertices show a label and their weight; edges show their weight
and are drawn the thicker the heavier they are, up to width 6. -/
def toDot (g : WeightedGraph ν ε) (name : String) (label : ν → String) : String :=
  let vertices := g.vertices.toList.zipIdx.map fun (v, i) =>
    s!"  n{i} [label=\"{dotEscape (label v.value)} [{v.weight}]\"];\n"
  let edges := g.edges.toList.map fun e =>
    let width := 1 + max 0 (min e.weight 5)
    s!"  n{e.source} -> n{e.sink} [label=\"{e.weight}\", penwidth={width}];\n"
  "digraph \"" ++ dotEscape name ++ "\" \x7b\n  rankdir=LR;\n" ++ String.join vertices ++
    String.join edges ++ "\x7d\n"

end WeightedGraph

end NetlistCompiler
