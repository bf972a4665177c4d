import Lineage.Text.LowerCase
import Lineage.Vocabulary

/-!
# Requests

What a caller may ask for: a graph of the set, a scope and a view. A caller's spelling is read
without regard to case and separators (`normalize`), so `End-To-End` and `end_to_end` are one scope;
a stored spelling is exact (`GraphName.ofName?`, `Scope.ofName?`, `View.ofName?`).
-/

namespace Lineage

/-- A request that names something unknown, with the caller's own text. -/
inductive RequestError where
  | invalidScope (text : String)
  | invalidView (text : String)
  | invalidSource (text : String)
deriving DecidableEq, Repr

def RequestError.message : RequestError → String
  | invalidScope t => s!"Invalid scope '{t}'"
  | invalidView t => s!"Invalid view '{t}'"
  | invalidSource t => s!"Invalid graph source '{t}'"

/-! ## Spellings -/

def isSeparator (c : Char) : Bool := c = '-' || c = '_' || c = ' '

/-- Without separators, in lower case. -/
def normalize (text : String) : String :=
  String.ofList ((text.toList.filter fun c => !isSeparator c).flatMap lowerCase)

/-! ## Graphs -/

/-- The graphs of a set. -/
inductive GraphName where
  /-- Consolidated lineage. -/
  | main
  /-- Instances as they arrive. -/
  | buffer
  /-- Synthetic lineage. -/
  | mock
  | history
deriving DecidableEq, Repr

namespace GraphName

def all : List GraphName := [main, buffer, mock, history]

def name : GraphName → String
  | main => "main"
  | buffer => "buffer"
  | mock => "mock"
  | history => "history"

def ofName? (s : String) : Option GraphName := all.find? fun g => g.name == s

def spellings (g : GraphName) : List String := [g.name]

def parse (text : String) : Except RequestError GraphName :=
  match all.find? fun g => g.spellings.contains (normalize text) with
  | some g => .ok g
  | none => .error (.invalidSource text)

end GraphName

/-! ## Scopes -/

/-- The shape of the lineage asked for. -/
inductive Scope where
  /-- Sources and destinations together. -/
  | sourceAndDestination
  /-- Every path through the vertex, both ways. -/
  | endToEnd
  /-- Where the data comes from in the end. -/
  | ultimateSource
  /-- Where the data goes in the end. -/
  | ultimateDestination
  /-- The synonyms of a term and the assets assigned to them. -/
  | glossary
deriving DecidableEq, Repr

namespace Scope

def all : List Scope :=
  [sourceAndDestination, endToEnd, ultimateSource, ultimateDestination, glossary]

def name : Scope → String
  | sourceAndDestination => "sourceAndDestination"
  | endToEnd => "endToEnd"
  | ultimateSource => "ultimateSource"
  | ultimateDestination => "ultimateDestination"
  | glossary => "glossary"

def ofName? (s : String) : Option Scope := all.find? fun x => x.name == s

def spellings : Scope → List String
  | sourceAndDestination => ["sourceanddestination"]
  | endToEnd => ["endtoend", "end2end"]
  | ultimateSource => ["ultimatesource"]
  | ultimateDestination => ["ultimatedestination"]
  | glossary => ["glossary", "glossarylineage"]

def parse (text : String) : Except RequestError Scope :=
  match all.find? fun x => x.spellings.contains (normalize text) with
  | some x => .ok x
  | none => .error (.invalidScope text)

end Scope

/-! ## Views -/

/-- The granularity of a traversal. -/
inductive View where
  | table
  | column
deriving DecidableEq, Repr

namespace View

def all : List View := [table, column]

def name : View → String
  | table => "TABLE_VIEW"
  | column => "COLUMN_VIEW"

def ofName? (s : String) : Option View := all.find? fun v => v.name == s

def spellings : View → List String
  | table => ["tableview", "table"]
  | column => ["columnview", "column"]

def parse (text : String) : Except RequestError View :=
  match all.find? fun v => v.spellings.contains (normalize text) with
  | some v => .ok v
  | none => .error (.invalidView text)

/-- The label of the edges that carry data in this view. -/
def edgeLabel : View → EdgeLabel
  | table => .tableAndProcess
  | column => .columnAndProcess

end View

end Lineage
