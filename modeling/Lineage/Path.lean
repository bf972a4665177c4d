/-!
# Paths

Paths are text with slashes between their segments. Joining and taking the parent work on the text
alone; empty segments and single dots are passed over, except for a dot that a path begins with.
-/

namespace Lineage.Path

def isAbsolute (path : String) : Bool := path.toList.head? == some '/'

/-- The second path, as seen from the first. -/
def join (base path : String) : String :=
  if isAbsolute path || base.isEmpty then path
  else if base.toList.getLast? == some '/' then base ++ path
  else base ++ "/" ++ path

/-- The parts between the slashes. -/
def segments (path : List Char) : List (List Char) := path.splitOn '/'

def ofSegments (segments : List (List Char)) : List Char := List.intercalate ['/'] segments

def isIdle (segment : List Char) : Bool := segment == [] || segment == ['.']

/-- Leaves off the idle segments at the end. -/
def trimEnd (segments : List (List Char)) : List (List Char) :=
  (segments.reverse.dropWhile isIdle).reverse

/-- The start that a path keeps whatever is cut off at its end: the root, or a dot it begins with.
-/
def splitStart : List Char → List Char × List Char
  | '/' :: rest => (['/'], rest)
  | ['.'] => (['.'], [])
  | '.' :: '/' :: rest => (['.'], '/' :: rest)
  | cs => ([], cs)

/-- What is left without the last segment; the root and the empty path have no parent. -/
def parent? (path : String) : Option String :=
  let (start, rest) := splitStart path.toList
  match (trimEnd (segments rest)).reverse with
  | [] => if start = ['.'] then some "" else none
  | _ :: before => some (String.ofList (start ++ ofSegments (trimEnd before.reverse)))

end Lineage.Path
