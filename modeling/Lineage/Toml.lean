/-!
# TOML values

What a TOML document holds, as far as a reader of settings can tell it apart. A table remembers how
it came to be, because that decides in what ways it may be added to later.
-/

namespace Lineage

/-- How a table came to be. -/
inductive TableOrigin where
  /-- Opened by a header of its own. -/
  | header
  /-- Named on the way to the table of a header. -/
  | implied
  /-- Named on the way to a dotted key. -/
  | dotted
  /-- Written as a value. -/
  | inline
deriving DecidableEq, Repr

inductive Toml where
  | str (s : String)
  | int (i : Int)
  | float
  | bool (b : Bool)
  | dateTime
  | arr (items : List Toml)
  | table (origin : TableOrigin) (entries : List (String × Toml))
  /-- The tables of repeated headers in double brackets. -/
  | tables (elements : List (List (String × Toml)))

namespace Toml

abbrev Entries := List (String × Toml)

def int64Limit : Nat := Nat.pow 2 63

end Toml

end Lineage
