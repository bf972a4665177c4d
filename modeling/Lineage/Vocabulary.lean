/-!
# The words of lineage graphs

Vertex and edge labels of a consolidated graph, the property keys its vertices carry, and the
classes of type names met on instances before they are consolidated. Labels and keys are written
into stored graphs, so each has exactly one spelling (`NodeLabel.ofName?_name`).
-/

namespace Lineage

/-- Label of a vertex in a consolidated graph. -/
inductive NodeLabel where
  | table
  | column
  | process
  | subProcess
  | glossaryTerm
  /-- Stands for several vertices in an answer; never stored. -/
  | condensed
deriving DecidableEq, Repr

namespace NodeLabel

def all : List NodeLabel := [table, column, process, subProcess, glossaryTerm, condensed]

def name : NodeLabel → String
  | table => "Table"
  | column => "Column"
  | process => "Process"
  | subProcess => "SubProcess"
  | glossaryTerm => "GlossaryTerm"
  | condensed => "Condensed"

def ofName? (s : String) : Option NodeLabel := all.find? fun l => l.name == s

theorem ofName?_name (l : NodeLabel) : ofName? l.name = some l := by cases l <;> decide

theorem name_injective {l m : NodeLabel} (h : l.name = m.name) : l = m := by
  have := ofName?_name l
  rw [h, ofName?_name m] at this
  exact (Option.some.inj this).symm

@[simp]
theorem name_inj {l m : NodeLabel} : l.name = m.name ↔ l = m :=
  ⟨name_injective, congrArg name⟩

end NodeLabel

/-- Label of an edge in a consolidated graph. -/
inductive EdgeLabel where
  /-- Column to sub-process, and sub-process to column. -/
  | columnAndProcess
  /-- Input table to process, and process to output table. -/
  | tableAndProcess
  /-- Sub-process to the process it is a step of. -/
  | subprocessToProcess
  /-- Column to its enclosing table. -/
  | includedIn
  /-- Asset to glossary term. -/
  | semantic
  /-- Two glossary terms with one meaning. -/
  | synonym
  /-- Stands for several edges in an answer; never stored. -/
  | condensed
deriving DecidableEq, Repr

namespace EdgeLabel

def all : List EdgeLabel :=
  [columnAndProcess, tableAndProcess, subprocessToProcess, includedIn, semantic, synonym, condensed]

def name : EdgeLabel → String
  | columnAndProcess => "ColumnAndProcess"
  | tableAndProcess => "TableAndProcess"
  | subprocessToProcess => "SubprocessToProcess"
  | includedIn => "IncludedIn"
  | semantic => "Semantic"
  | synonym => "GlossaryTermToGlossaryTerm"
  | condensed => "Condensed"

def ofName? (s : String) : Option EdgeLabel := all.find? fun l => l.name == s

theorem ofName?_name (l : EdgeLabel) : ofName? l.name = some l := by cases l <;> decide

theorem name_injective {l m : EdgeLabel} (h : l.name = m.name) : l = m := by
  have := ofName?_name l
  rw [h, ofName?_name m] at this
  exact (Option.some.inj this).symm

@[simp]
theorem name_inj {l m : EdgeLabel} : l.name = m.name ↔ l = m :=
  ⟨name_injective, congrArg name⟩

end EdgeLabel

/-! ## Property keys -/

namespace Key

/-- Identity of a vertex in a consolidated graph. -/
def nodeId : String := "nodeId"

/-- Identity of the metadata instance a vertex came from. -/
def guid : String := "guid"

def displayName : String := "displayName"

def tableDisplayName : String := "tableDisplayName"

def schemaDisplayName : String := "schemaDisplayName"

/-- The key under which a property of an instance is stored. -/
def ofEntity (property : String) : String := "veprop" ++ property

/-- The display name as an instance carries it. -/
def entityDisplayName : String := ofEntity "displayName"

end Key

/-! ## Type names of instances -/

namespace TypeName

def semanticAssignment : String := "SemanticAssignment"

def synonym : String := "Synonym"

/-- Relationships that carry meaning or data flow, and not containment. -/
def nonStructural : List String :=
  [semanticAssignment, synonym, "LineageMapping", "DataFlow", "ControlFlow", "ProcessPort"]

/-- Types that enclose columns. -/
def isTableLike (type : String) : Bool := ["RelationalTable", "DataFile"].contains type

/-- Types that enclose tables. -/
def isSchemaLike (type : String) : Bool := ["RelationalDBSchemaType", "FileFolder"].contains type

/-- Whether a relationship can lead from an asset to its container. -/
def isStructural (type : String) : Bool := !nonStructural.contains type

theorem isStructural_iff {type : String} : isStructural type = true ↔ type ∉ nonStructural := by
  simp [isStructural]

end TypeName

end Lineage
