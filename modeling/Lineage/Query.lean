import Lineage.Builder
import Lineage.Error
import Lineage.Graph.Reach
import Lineage.GraphSet

/-!
# Lineage queries

A query names a vertex by node id or guid and asks for its lineage in a scope. On one side of the
vertex the answer shows the whole way to a single terminal, or condenses several (`addSide`);
without any terminal the lineage is a cycle, which is an error. End to end everything is shown as
it is. The glossary scope takes the synonyms of a term and the assets of any of them.
-/

namespace Lineage

namespace Query

variable {γ : Type} [Readable γ] (g : γ)

/-- The vertex asked about: by node id, or else by guid. -/
def findNode? (text : String) : Option Vertex :=
  (vertexWith? g Key.nodeId text).or (vertexWith? g Key.guid text)

/-- The terminals on one side of the queried vertex, and the way there if there is just one. -/
def addSide (scope : Scope) (text : String) (label : EdgeLabel) (queried : Vertex) (side : Side)
    (b : Builder) : Except LineageError Builder := do
  let r ← reach g queried side.direction label.name
  if r.terminals.isEmpty then throw (.cycle scope text)
  if r.isTrivial queried.id then return b
  if r.terminals.length = 1 then (b.addVertices r.vertices).addEdges g r.edges
  else return b.condense side queried r.terminals

/-- All that lies on one side of the queried vertex. -/
def addReach (queried : Vertex) (direction : Direction) (label : EdgeLabel) (b : Builder) :
    Except StoreError Builder := do
  let r ← reach g queried direction label.name
  (b.addVertices r.vertices).addEdges g r.edges

/-- The assets assigned to a term. -/
def addAssets (term : Vertex) (b : Builder) : Except StoreError Builder := do
  let assets ← neighbors g term.id .inward (some EdgeLabel.semantic.name)
  assets.foldlM (fun b (e, asset) => (b.addVertex asset).2.addEdge g e) b

def addGlossary (queried : Vertex) (b : Builder) : Except StoreError Builder := do
  let r ← reach g queried .both EdgeLabel.synonym.name
  let b ← (b.addVertices r.vertices).addEdges g r.edges
  r.vertices.foldlM (fun b term => addAssets g term b) b

/-- The answer about a vertex of a graph, unfinished. -/
def assemble (scope : Scope) (view : View) (text : String) (queried : Vertex) (b : Builder) :
    Except LineageError Builder := do
  let label := view.edgeLabel
  let b := (b.addVertex queried).2
  match scope with
  | .ultimateSource => addSide g scope text label queried .source b
  | .ultimateDestination => addSide g scope text label queried .destination b
  | .sourceAndDestination =>
    let b ← addSide g scope text label queried .source b
    addSide g scope text label queried .destination b
  | .endToEnd =>
    let b ← addReach g queried .inward label b
    addReach g queried .outward label b
  | .glossary => addGlossary g queried b

/-- The answer of one graph. -/
def answer (whitelist : Whitelist) (name : GraphName) (scope : Scope) (view : View)
    (text : String) : Except LineageError Response := do
  match findNode? g text with
  | none => throw (.nodeNotFound scope name text)
  | some queried =>
    let b ← assemble g scope view text queried (.empty whitelist)
    return b.finish

end Query

/-- Answers a query on a graph of a set. -/
def GraphSet.query (s : GraphSet) (whitelist : Whitelist) (name : GraphName) (scope : Scope)
    (view : View) (text : String) : Except LineageError Response :=
  Query.answer (s.get name) whitelist name scope view text

/-- Answers a query in a caller's spelling; all of it is read before a graph is looked at. -/
def GraphSet.queryText (s : GraphSet) (whitelist : Whitelist) (graph scope view text : String) :
    Except LineageError Response := do
  let name ← GraphName.parse graph
  let scope ← Scope.parse scope
  let view ← View.parse view
  s.query whitelist name scope view text

end Lineage
