import EventCheck.Graph.Basic

/-!
Graphs in the notation of graph drawing tools: a box for each vertex, an arrow for each edge.
-/

namespace EventCheck

/-- A label on one line; line breaks become breaks inside the drawn label. -/
def dotLabel (label : String) : String :=
  String.join (label.toList.map fun c => if c = '\n' then "\\l" else c.toString)

/-- The graph as a drawing, given what to write on vertices and edges. -/
def Graph.dot {ν ε : Type} (vertexLabel : Nat → ν → String)
    (edgeLabel : Arc → ε → String) (g : Graph ν ε) : String :=
  let vertices := g.vertices.toList.map fun (vertex, label) =>
    toString vertex ++ " [shape=\"box\", label=\"" ++ dotLabel (vertexLabel vertex label)
      ++ "\", style=\"filled\", fillcolor=\"#ffddcc\", fontcolor=\"#000000\"];"
  let edges := g.edges.toList.map fun (arc, label) =>
    toString arc.head ++ " -> " ++ toString arc.tail ++ " [label=\""
      ++ dotLabel (edgeLabel arc label) ++ "\", style=\"solid\", color=\"#000000\"];"
  "digraph G \x7b\nnode [fontname = \"Courier New\"]\n\n" ++ "\n".intercalate vertices ++ "\n"
    ++ "\n".intercalate edges ++ "\n\x7d"

end EventCheck
