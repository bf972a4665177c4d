import Lineage.GraphSet
import Lineage.Text.Combining
import Lineage.Text.Invisible

/-!
# Descriptions

How graphs are named in a line of text for a reader. A name stands in quotes, and in it the
characters that would not show by themselves are written out (`quoteName`).
-/

namespace Lineage

/-- Whether a character does not show by itself. -/
def isHidden (c : Char) : Bool := isCombining c || isInvisible c

def describeChar (c : Char) : List Char :=
  if c = '"' || c = '\\' then ['\\', c]
  else if c = '\t' then ['\\', 't']
  else if c = '\n' then ['\\', 'n']
  else if c = '\r' then ['\\', 'r']
  else if c = '\x00' then ['\\', '0']
  else if isHidden c then '\\' :: 'u' :: '\x7b' :: Nat.toDigits 16 c.toNat ++ ['\x7d']
  else [c]

def quoteName (name : String) : String :=
  String.ofList ('"' :: name.toList.flatMap describeChar ++ ['"'])

def Graph.describe (g : Graph) : String :=
  "MemoryGraph \x7b name: " ++ quoteName g.name ++ ", .. \x7d"

def GraphName.title : GraphName → String
  | main => "Main"
  | buffer => "Buffer"
  | mock => "Mock"
  | history => "History"

/-- The names of the graphs in a set. -/
def GraphSet.describe (_ : GraphSet) : String :=
  "[" ++ ", ".intercalate (GraphName.all.map GraphName.title) ++ "]"

end Lineage
