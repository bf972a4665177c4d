import Lineage.Toml.Reader

/-!
# TOML documents

What the lines of a text amount to. A header opens a table, which must not be there yet unless only
the headers of tables inside it have named it; a header in double brackets adds one more table to
the list under its key. An assignment goes to the table of the header above it (`Toml.read?`).
-/

namespace Lineage.Toml

/-- The tables so far, and the path of the header that is open. -/
structure Assembly where
  root : Entries := []
  current : List String := []

namespace Assembly

/-- Acts on the entries of the table that holds the last key of a path. -/
def alterParent (a : Assembly) (path : List String)
    (act : String → Entries → Option Entries) : Option Assembly := do
  let key ← path.getLast?
  let (_, root) ←
    alterAt .implied (fun o es => (act key es).map (o, ·)) path.dropLast .header a.root
  return { root, current := path }

def openTable (key : String) (entries : Entries) : Option Entries :=
  match entries.lookup key with
  | none => some (entries ++ [(key, .table .header [])])
  | some (.table .implied es) => some (replaceAt key (.table .header es) entries)
  | some _ => none

def addElement (key : String) (entries : Entries) : Option Entries :=
  match entries.lookup key with
  | none => some (entries ++ [(key, .tables [[]])])
  | some (.tables es) => some (replaceAt key (.tables (es ++ [[]])) entries)
  | some _ => none

def addLine (a : Assembly) : Line → Option Assembly
  | .header path => a.alterParent path openTable
  | .element path => a.alterParent path addElement
  | .assignment path value => do
    let (_, root) ← alterAt .implied (assign path value) a.current .header a.root
    return { a with root }

end Assembly

/-- The entries of a document. -/
def read? (text : String) : Option Entries := do
  let lines ← lines? text
  let a ← lines.foldlM Assembly.addLine {}
  return a.root

end Lineage.Toml
