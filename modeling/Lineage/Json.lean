import Lineage.Decimal

/-!
# JSON values

Objects keep their members as written, repeated names included: which of them counts is for the
reader of a record to say. A string whose escapes do not add up to text is well-formed all the same,
and so is an object with such a name; both are values that cannot be looked into (`Json.garbled`). A
value is written over several lines with two blanks for each level (`pretty`); strings escape the
quote, the backslash and the control characters only.
-/

namespace Lineage

inductive Json where
  | null
  | bool (b : Bool)
  | num (d : Decimal)
  | str (s : String)
  | arr (items : List Json)
  | obj (members : List (String × Json))
  /-- A string with a surrogate that stands alone, or an object with such a string for a name. -/
  | garbled

namespace Json

def ofNat (n : Nat) : Json := .num (.ofNat n)

/-! ## Text -/

def hexDigit (n : Nat) : Char := if n < 10 then Char.ofNat (48 + n) else Char.ofNat (87 + n)

/-- A character as it stands inside a quoted string. -/
def escape (c : Char) : List Char :=
  if c = '"' then ['\\', '"']
  else if c = '\\' then ['\\', '\\']
  else if c = '\x08' then ['\\', 'b']
  else if c = '\x0c' then ['\\', 'f']
  else if c = '\n' then ['\\', 'n']
  else if c = '\r' then ['\\', 'r']
  else if c = '\t' then ['\\', 't']
  else if c.toNat < 32 then ['\\', 'u', '0', '0', hexDigit (c.toNat / 16), hexDigit (c.toNat % 16)]
  else [c]

def quote (s : String) : List Char := '"' :: s.toList.flatMap escape ++ ['"']

/-- A surrogate that stands alone. -/
def loneSurrogate : List Char := ['"', '\\', 'u', 'd', '8', '0', '0', '"']

/-- The start of a line at a level of nesting. -/
def newline (level : Nat) : List Char := '\n' :: List.replicate (2 * level) ' '

mutual

/-- A value that starts on a line of the given level. -/
def layout (level : Nat) : Json → List Char
  | .null => ['n', 'u', 'l', 'l']
  | .bool true => ['t', 'r', 'u', 'e']
  | .bool false => ['f', 'a', 'l', 's', 'e']
  | .num d => d.write
  | .str s => quote s
  | .arr [] => ['[', ']']
  | .arr (x :: xs) =>
    '[' :: newline (level + 1) ++ layout (level + 1) x ++ layoutItems (level + 1) xs ++
      newline level ++ [']']
  | .obj [] => ['\x7b', '\x7d']
  | .obj ((k, x) :: ms) =>
    '\x7b' :: newline (level + 1) ++ quote k ++ ':' :: ' ' :: layout (level + 1) x ++
      layoutMembers (level + 1) ms ++ newline level ++ ['\x7d']
  | .garbled => loneSurrogate

/-- The items after the first. -/
def layoutItems (level : Nat) : List Json → List Char
  | [] => []
  | x :: xs => ',' :: newline level ++ layout level x ++ layoutItems level xs

/-- The members after the first. -/
def layoutMembers (level : Nat) : List (String × Json) → List Char
  | [] => []
  | (k, x) :: ms =>
    ',' :: newline level ++ quote k ++ ':' :: ' ' :: layout level x ++ layoutMembers level ms

end

def pretty (j : Json) : String := String.ofList (layout 0 j)

/-! ## Nesting -/

mutual

/-- How many arrays and objects lie inside each other. -/
def depth : Json → Nat
  | .arr xs => depthItems xs + 1
  | .obj ms => depthMembers ms + 1
  | _ => 0

def depthItems : List Json → Nat
  | [] => 0
  | x :: xs => max (depth x) (depthItems xs)

def depthMembers : List (String × Json) → Nat
  | [] => 0
  | (_, x) :: ms => max (depth x) (depthMembers ms)

end

mutual

/-- Whether every string in the value has a text and every number a double next to it. -/
def isReadable : Json → Bool
  | .num d => !d.overflowsAsProduct
  | .arr xs => isReadableItems xs
  | .obj ms => isReadableMembers ms
  | .garbled => false
  | _ => true

def isReadableItems : List Json → Bool
  | [] => true
  | x :: xs => isReadable x && isReadableItems xs

def isReadableMembers : List (String × Json) → Bool
  | [] => true
  | (_, x) :: ms => isReadable x && isReadableMembers ms

end

end Json

end Lineage
