import Lineage.Json

/-!
# Reading JSON text

The grammar of RFC 8259 over a list of characters. Each scanner takes what it reads off the front
and returns the rest. Nothing beyond the grammar is let through: no comments, no trailing comma, no
text after the value (`parse`). The grammar lets surrogates stand alone; a string with one of them
is read to its end, but has no text (`textOf?`).
-/

namespace Lineage.Json

def isBlank (c : Char) : Bool := c = ' ' || c = '\t' || c = '\n' || c = '\r'

def skipBlank (cs : List Char) : List Char := cs.dropWhile isBlank

/-! ## Strings -/

def hexValue? (c : Char) : Option Nat :=
  if '0' ≤ c ∧ c ≤ '9' then some (c.toNat - 48)
  else if 'a' ≤ c ∧ c ≤ 'f' then some (c.toNat - 87)
  else if 'A' ≤ c ∧ c ≤ 'F' then some (c.toNat - 55)
  else none

def hex4? (a b c d : Char) : Option Nat := do
  let a ← hexValue? a
  let b ← hexValue? b
  let c ← hexValue? c
  let d ← hexValue? d
  return ((a * 16 + b) * 16 + c) * 16 + d

def isHighSurrogate (n : Nat) : Bool := 0xd800 ≤ n && n < 0xdc00

def isLowSurrogate (n : Nat) : Bool := 0xdc00 ≤ n && n < 0xe000

def ofSurrogates (high low : Nat) : Char :=
  Char.ofNat (0x10000 + (high - 0xd800) * 0x400 + (low - 0xdc00))

/-- The character that a backslash and this letter stand for. -/
def unescape? (c : Char) : Option Char :=
  if c = '"' then some '"'
  else if c = '\\' then some '\\'
  else if c = '/' then some '/'
  else if c = 'b' then some '\x08'
  else if c = 'f' then some '\x0c'
  else if c = 'n' then some '\n'
  else if c = 'r' then some '\r'
  else if c = 't' then some '\t'
  else none

/-- Reads a string from behind its opening quote to behind its closing one, as code points: those of
its characters, and those that its escapes write. -/
def scanString : List Char → Option (List Nat × List Char)
  | [] => none
  | '"' :: rest => some ([], rest)
  | '\\' :: 'u' :: a :: b :: c :: d :: rest =>
    match hex4? a b c d with
    | none => none
    | some n => (scanString rest).map fun (ns, rest) => (n :: ns, rest)
  | '\\' :: c :: rest =>
    match unescape? c with
    | none => none
    | some x => (scanString rest).map fun (ns, rest) => (x.toNat :: ns, rest)
  | c :: rest =>
    if c.toNat < 32 || c = '\\' then none
    else (scanString rest).map fun (ns, rest) => (c.toNat :: ns, rest)

/-- The text that code points make. Surrogates count in pairs, and none may stand alone. -/
def textOf? : List Nat → Option (List Char)
  | [] => some []
  | [n] => if isHighSurrogate n || isLowSurrogate n then none else some [Char.ofNat n]
  | n :: m :: rest =>
    if isHighSurrogate n then
      if isLowSurrogate m then (textOf? rest).map (ofSurrogates n m :: ·) else none
    else if isLowSurrogate n then none
    else (textOf? (m :: rest)).map (Char.ofNat n :: ·)

/-! ## Numbers -/

/-- The integer part: a lone zero, or digits that do not start with zero. -/
def scanWhole (cs : List Char) : Option (List Char × List Char) :=
  match cs with
  | '0' :: rest => some (['0'], rest)
  | _ => match Decimal.digits cs with
    | ([], _) => none
    | found => some found

/-- The digits behind the point; the point needs one at least. -/
def scanFraction : List Char → Option (List Char × List Char)
  | '.' :: rest => match Decimal.digits rest with
    | ([], _) => none
    | found => some found
  | cs => some ([], cs)

def scanExponentDigits (cs : List Char) : Option (Nat × List Char) :=
  match Decimal.digits cs with
  | ([], _) => none
  | (ds, rest) => some (Decimal.value ds, rest)

def scanExponent : List Char → Option (Option Int × List Char)
  | c :: rest =>
    if c = 'e' || c = 'E' then
      match rest with
      | '-' :: rest => (scanExponentDigits rest).map fun (n, rest) => (some (-(n : Int)), rest)
      | '+' :: rest => (scanExponentDigits rest).map fun (n, rest) => (some (n : Int), rest)
      | _ => (scanExponentDigits rest).map fun (n, rest) => (some (n : Int), rest)
    else some (none, c :: rest)
  | [] => some (none, [])

def scanUnsigned (negative : Bool) (cs : List Char) : Option (Decimal × List Char) := do
  let (whole, rest) ← scanWhole cs
  let (fraction, rest) ← scanFraction rest
  let (exponent, rest) ← scanExponent rest
  let exponent :=
    if fraction.isEmpty then exponent else some (exponent.getD 0 - (fraction.length : Int))
  return (⟨negative, Decimal.value (whole ++ fraction), exponent⟩, rest)

def scanNumber : List Char → Option (Decimal × List Char)
  | '-' :: rest => scanUnsigned true rest
  | cs => scanUnsigned false cs

/-! ## Values -/

def ofCodePoints (ns : List Nat) : Json :=
  match textOf? ns with
  | some s => .str (String.ofList s)
  | none => .garbled

def ofMembers : Option (List (String × Json)) → Json
  | some ms => .obj ms
  | none => .garbled

/-- One more member in front; its name has to be text. -/
def consMember (name : List Nat) (x : Json) (ms : Option (List (String × Json))) :
    Option (List (String × Json)) := do
  return (String.ofList (← textOf? name), x) :: (← ms)

mutual

/-- One value, blanks before it skipped. The fuel bounds the depth of the calls; twice the length
of the text is enough, because every second call takes a character. -/
def value : Nat → List Char → Option (Json × List Char)
  | 0, _ => none
  | fuel + 1, cs => match skipBlank cs with
    | '\x7b' :: rest => match skipBlank rest with
      | '\x7d' :: rest => some (.obj [], rest)
      | rest => (members fuel rest).map fun (ms, rest) => (ofMembers ms, rest)
    | '[' :: rest => match skipBlank rest with
      | ']' :: rest => some (.arr [], rest)
      | rest => (items fuel rest).map fun (xs, rest) => (.arr xs, rest)
    | '"' :: rest => (scanString rest).map fun (ns, rest) => (ofCodePoints ns, rest)
    | 't' :: 'r' :: 'u' :: 'e' :: rest => some (.bool true, rest)
    | 'f' :: 'a' :: 'l' :: 's' :: 'e' :: rest => some (.bool false, rest)
    | 'n' :: 'u' :: 'l' :: 'l' :: rest => some (.null, rest)
    | rest => (scanNumber rest).map fun (d, rest) => (.num d, rest)

/-- The items of an array that has one at least, to behind the closing bracket. -/
def items : Nat → List Char → Option (List Json × List Char)
  | 0, _ => none
  | fuel + 1, cs => do
    let (x, rest) ← value fuel cs
    match skipBlank rest with
    | ']' :: rest => return ([x], rest)
    | ',' :: rest =>
      let (xs, rest) ← items fuel rest
      return (x :: xs, rest)
    | _ => none

/-- The members of an object that has one at least, to behind the closing brace; none if a name has
no text. -/
def members : Nat → List Char → Option (Option (List (String × Json)) × List Char)
  | 0, _ => none
  | fuel + 1, cs => match skipBlank cs with
    | '"' :: rest => do
      let (name, rest) ← scanString rest
      match skipBlank rest with
      | ':' :: rest =>
        let (x, rest) ← value fuel rest
        match skipBlank rest with
        | '\x7d' :: rest => return (consMember name x (some []), rest)
        | ',' :: rest =>
          let (ms, rest) ← members fuel rest
          return (consMember name x ms, rest)
        | _ => none
      | _ => none
    | _ => none

end

def parse (text : String) : Option Json :=
  let cs := text.toList
  match value (2 * cs.length + 2) cs with
  | some (j, rest) => if (skipBlank rest).isEmpty then some j else none
  | none => none

end Lineage.Json
