import Lineage.Graph.Read

/-!
# Bounded expansion

The vertices within some number of hops of a start, nearest first, each once and with the depth at
which it was first met. The expansion works on walks, level by level: a level holds the walks of one
length, and visiting it yields the next. Two rules tell which walks to extend. Under `simplePaths` a
walk does not come back to itself; without it, a walk does not go to a vertex that has been met.
-/

namespace Lineage

/-- A vertex that an expansion met. -/
structure Reached where
  vertex : Vertex
  depth : Nat
deriving DecidableEq

/-- What an expansion follows. -/
structure ExpansionRule where
  direction : Direction
  accepts : Edge → Bool
  simplePaths : Bool

/-- A walk from the start, its last vertex first. -/
structure Walk where
  last : VertexId
  before : List VertexId
deriving DecidableEq, Repr

namespace Walk

def vertices (w : Walk) : List VertexId := w.last :: w.before

def depth (w : Walk) : Nat := w.before.length

def extend (w : Walk) (v : VertexId) : Walk := ⟨v, w.vertices⟩

end Walk

section Levels

variable {γ : Type} [Readable γ] (g : γ) (rule : ExpansionRule)

def isMet (met : List Reached) (v : VertexId) : Bool := met.any fun r => r.vertex.id == v

/-- The walks one hop longer. -/
def extensions (met : List Reached) (w : Walk) : List Walk :=
  ((incident g w.last rule.direction).filter rule.accepts).filterMap fun e =>
    let next := e.other w.last
    let closed := if rule.simplePaths then w.vertices.contains next else isMet met next
    if closed then none else some (w.extend next)

/-- Notes the end of a walk if it is new. -/
def meetEnd (met : List Reached) (w : Walk) : Except StoreError (List Reached) :=
  if isMet met w.last then .ok met
  else (requireVertex g w.last).map fun v => met ++ [⟨v, w.depth⟩]

/-- Visits the walks of one level in order; with `onward`, collects those of the next. -/
def visitLevel (onward : Bool) :
    List Reached → List Walk → Except StoreError (List Reached × List Walk)
  | met, [] => .ok (met, [])
  | met, w :: ws => do
    let met ← meetEnd g met w
    let longer := if onward then extensions g rule met w else []
    let (met, rest) ← visitLevel onward met ws
    return (met, longer ++ rest)

def visitLevels : Nat → List Reached → List Walk → Except StoreError (List Reached)
  | _, met, [] => .ok met
  | 0, met, ws => (visitLevel g rule false met ws).map Prod.fst
  | hops + 1, met, ws => do
    let (met, longer) ← visitLevel g rule true met ws
    visitLevels hops met longer

/-- The vertices within a number of hops of a start. -/
def expandBy (start : VertexId) (maxHops : Nat) : Except StoreError (List Reached) :=
  visitLevels g rule maxHops [] [⟨start, []⟩]

/-- Expansion over the edges of one label, or of all. -/
def expand (start : VertexId) (direction : Direction) (label : Option String) (maxHops : Nat)
    (simplePaths : Bool) : Except StoreError (List Reached) :=
  expandBy g ⟨direction, Edge.matches label, simplePaths⟩ start maxHops

end Levels

end Lineage
