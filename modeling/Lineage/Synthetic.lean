import Lineage.Ingestion

/-!
# Synthetic lineage

A chain of tables in one schema, all with the same number of columns. Each column feeds the column
at its place in the next table, through one process for each pair of tables. The chain is told as
events and taken through a scratch buffer, as any other lineage is.
-/

namespace Lineage

/-- The shape of a chain. -/
structure SyntheticChain where
  tables : Nat
  columns : Nat
deriving DecidableEq, Repr

namespace SyntheticChain

def schemaGuid : String := "mock-s0"

def tableGuid (table : Nat) : String := "mock-t" ++ toString table

def columnGuid (table column : Nat) : String :=
  "mock-c" ++ toString table ++ "_" ++ toString column

def processGuid (table : Nat) : String := "mock-p" ++ toString table

/-- An entity with nothing but a display name. -/
def named (guid type name : String) : Entity :=
  ⟨guid, type, (∅ : Properties).insert "displayName" name⟩

def schemaEvent : Event := .newEntity (named schemaGuid "RelationalDBSchemaType" "mock_schema")

def tableEvents (table : Nat) : List Event :=
  [.newEntity (named (tableGuid table) "RelationalTable" ("mock_table_" ++ toString table)),
    .newRelationship ⟨"mock-r" ++ toString table, "AttachedSchema", schemaGuid, tableGuid table, ∅⟩]

def columnEvents (table column : Nat) : List Event :=
  [.newEntity (named (columnGuid table column) "RelationalColumn"
      ("mock_column_" ++ toString column)),
    .newRelationship ⟨"mock-r" ++ columnGuid table column, "NestedSchemaAttribute",
      tableGuid table, columnGuid table column, ∅⟩]

/-- The process that fills a table from the one before. -/
def processEvent (columns table : Nat) : Event :=
  .processContext (named (processGuid table) "Process" ("mock_process_" ++ toString table))
    ((List.range columns).map fun column =>
      ⟨columnGuid (table - 1) column, columnGuid table column⟩)

def eventsOfTable (columns table : Nat) : List Event :=
  tableEvents table ++ (List.range columns).flatMap (columnEvents table) ++
    if table = 0 then [] else [processEvent columns table]

/-- The events that tell of a chain, each after those it refers to. -/
def events (c : SyntheticChain) : List Event :=
  schemaEvent :: (List.range c.tables).flatMap (eventsOfTable c.columns)

/-- Consolidates a chain into a graph. -/
def populate [StepIds] (c : SyntheticChain) (depths : SearchDepths) (target : Graph) :
    Summary × Graph :=
  let (s, w) := Workspace.ingestAll depths ⟨.empty "mock-buffer", target⟩ c.events
  (s, w.main)

end SyntheticChain

end Lineage
