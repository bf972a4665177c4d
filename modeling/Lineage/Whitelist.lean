import Lineage.Vocabulary
import Std.Data.ExtTreeSet

/-!
# Whitelists

The property keys that an answer may show. What is stored is not touched by it.
-/

namespace Lineage

open Std

abbrev Whitelist := ExtTreeSet String

namespace Whitelist

def ofKeys (keys : List String) : Whitelist := ExtTreeSet.ofList keys

def standard : Whitelist :=
  ofKeys [Key.tableDisplayName, Key.schemaDisplayName, Key.ofEntity "qualifiedName",
    Key.ofEntity "description", Key.ofEntity "dataType"]

def allows (w : Whitelist) (key : String) : Bool := w.contains key

def keys (w : Whitelist) : List String := w.toList

end Whitelist

end Lineage
