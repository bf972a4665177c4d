import Lineage.Graph.Document
import Lineage.Request

/-!
# Graph sets

One graph under each graph name.
-/

namespace Lineage

structure GraphSet where
  main : Graph
  buffer : Graph
  mock : Graph
  history : Graph
deriving DecidableEq

namespace GraphSet

/-- The set of empty graphs. -/
def empty : GraphSet where
  main := .empty GraphName.main.name
  buffer := .empty GraphName.buffer.name
  mock := .empty GraphName.mock.name
  history := .empty GraphName.history.name

def get (s : GraphSet) : GraphName → Graph
  | .main => s.main
  | .buffer => s.buffer
  | .mock => s.mock
  | .history => s.history

def set (s : GraphSet) (name : GraphName) (g : Graph) : GraphSet :=
  match name with
  | .main => { s with main := g }
  | .buffer => { s with buffer := g }
  | .mock => { s with mock := g }
  | .history => { s with history := g }

@[simp]
theorem get_set_self (s : GraphSet) (name : GraphName) (g : Graph) :
    (s.set name g).get name = g := by
  cases name <;> rfl

theorem get_set_of_ne (s : GraphSet) {name other : GraphName} (g : Graph) (h : other ≠ name) :
    (s.set name g).get other = s.get other := by
  cases name <;> cases other <;> first | rfl | exact absurd rfl h

end GraphSet

end Lineage
