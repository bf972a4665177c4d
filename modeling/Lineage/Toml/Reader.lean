import Lineage.Decimal
import Lineage.Toml

/-!
# Reading TOML text

The lines of a TOML 1.0 document: headers and assignments, with their values read. Each scanner
takes what it reads off the front of a list of characters and returns the rest. What the lines
amount to together is another matter (`Lineage.Toml.Assembly`).
-/

namespace Lineage.Toml

/-! ## Blanks and comments -/

def isSpace (c : Char) : Bool := c = ' ' || c = '\t'

def skipSpace (cs : List Char) : List Char := cs.dropWhile isSpace

/-- A character that may stand in a comment or a literal string. -/
def isPlain (c : Char) : Bool := c = '\t' || (32 ≤ c.toNat && c.toNat ≠ 127)

def newline? : List Char → Option (List Char)
  | '\n' :: rest => some rest
  | '\r' :: '\n' :: rest => some rest
  | _ => none

def skipComment : List Char → List Char
  | '#' :: rest => rest.dropWhile isPlain
  | cs => cs

/-- The end of a line: blanks, a comment, and a line break or the end of the text. -/
def lineEnd? (cs : List Char) : Option (List Char) :=
  match skipComment (skipSpace cs) with
  | [] => some []
  | rest => newline? rest

/-- Passes over blanks, line breaks and comments; `inComment` tells that a comment is open. -/
def skipTrivia : Bool → List Char → List Char
  | _, [] => []
  | _, '\n' :: rest => skipTrivia false rest
  | _, '\r' :: '\n' :: rest => skipTrivia false rest
  | true, c :: rest => if isPlain c then skipTrivia true rest else c :: rest
  | false, c :: rest =>
    if isSpace c then skipTrivia false rest
    else if c = '#' then skipTrivia true rest
    else c :: rest

/-! ## Strings -/

def hexValue? (c : Char) : Option Nat :=
  if '0' ≤ c ∧ c ≤ '9' then some (c.toNat - 48)
  else if 'a' ≤ c ∧ c ≤ 'f' then some (c.toNat - 87)
  else if 'A' ≤ c ∧ c ≤ 'F' then some (c.toNat - 55)
  else none

/-- The character of a code point, which must not be a surrogate. -/
def ofCodePoint? (n : Nat) : Option Char := if n.isValidChar then some (Char.ofNat n) else none

def hexChar? (digits : List Char) : Option Char := do
  let values ← digits.mapM hexValue?
  ofCodePoint? (values.foldl (fun n d => n * 16 + d) 0)

/-- The character that a backslash and this letter stand for. -/
def unescape? (c : Char) : Option Char :=
  if c = 'b' then some '\x08'
  else if c = 't' then some '\t'
  else if c = 'n' then some '\n'
  else if c = 'f' then some '\x0c'
  else if c = 'r' then some '\r'
  else if c = '"' then some '"'
  else if c = '\\' then some '\\'
  else none

/-- Puts a character, if there is one, before what is read. -/
def push (c : Option Char) (read : Option (List Char × List Char)) :
    Option (List Char × List Char) := do
  let c ← c
  let (s, rest) ← read
  return (c :: s, rest)

/-- A string on one line, from behind its quote to behind the closing one. -/
def scanBasic : List Char → Option (List Char × List Char)
  | [] => none
  | '"' :: rest => some ([], rest)
  | '\\' :: 'u' :: a :: b :: c :: d :: rest => push (hexChar? [a, b, c, d]) (scanBasic rest)
  | '\\' :: 'U' :: a :: b :: c :: d :: e :: f :: g :: h :: rest =>
    push (hexChar? [a, b, c, d, e, f, g, h]) (scanBasic rest)
  | '\\' :: c :: rest => push (unescape? c) (scanBasic rest)
  | c :: rest => if isPlain c && c ≠ '\\' then push (some c) (scanBasic rest) else none

/-- Whether a backslash before this text ends its line. -/
def endsLine (cs : List Char) : Bool := (newline? (skipSpace cs)).isSome

/-- A string over several lines; up to two of the quotes at its end belong to it. Behind a backslash
at the end of a line, `gap` passes over all blanks and line breaks. -/
def scanMultiBasic : Bool → List Char → Option (List Char × List Char)
  | _, [] => none
  | true, '\n' :: rest => scanMultiBasic true rest
  | true, '\r' :: '\n' :: rest => scanMultiBasic true rest
  | true, ' ' :: rest => scanMultiBasic true rest
  | true, '\t' :: rest => scanMultiBasic true rest
  | _, '"' :: '"' :: '"' :: '"' :: '"' :: rest => some (['"', '"'], rest)
  | _, '"' :: '"' :: '"' :: '"' :: rest => some (['"'], rest)
  | _, '"' :: '"' :: '"' :: rest => some ([], rest)
  | _, '\n' :: rest => push (some '\n') (scanMultiBasic false rest)
  | _, '\r' :: '\n' :: rest => push (some '\n') (scanMultiBasic false rest)
  | _, '\\' :: 'u' :: a :: b :: c :: d :: rest =>
    push (hexChar? [a, b, c, d]) (scanMultiBasic false rest)
  | _, '\\' :: 'U' :: a :: b :: c :: d :: e :: f :: g :: h :: rest =>
    push (hexChar? [a, b, c, d, e, f, g, h]) (scanMultiBasic false rest)
  | _, '\\' :: c :: rest =>
    if endsLine (c :: rest) then scanMultiBasic true (c :: rest)
    else push (unescape? c) (scanMultiBasic false rest)
  | _, c :: rest =>
    if isPlain c && c ≠ '\\' then push (some c) (scanMultiBasic false rest) else none

def scanLiteral : List Char → Option (List Char × List Char)
  | [] => none
  | '\x27' :: rest => some ([], rest)
  | c :: rest => if isPlain c then push (some c) (scanLiteral rest) else none

def scanMultiLiteral : List Char → Option (List Char × List Char)
  | [] => none
  | '\x27' :: '\x27' :: '\x27' :: '\x27' :: '\x27' :: rest => some (['\x27', '\x27'], rest)
  | '\x27' :: '\x27' :: '\x27' :: '\x27' :: rest => some (['\x27'], rest)
  | '\x27' :: '\x27' :: '\x27' :: rest => some ([], rest)
  | '\n' :: rest => push (some '\n') (scanMultiLiteral rest)
  | '\r' :: '\n' :: rest => push (some '\n') (scanMultiLiteral rest)
  | c :: rest => if isPlain c then push (some c) (scanMultiLiteral rest) else none

/-- A line break right behind the opening quotes is no part of the string. -/
def skipFirstNewline (cs : List Char) : List Char := (newline? cs).getD cs

def scanString : List Char → Option (List Char × List Char)
  | '"' :: '"' :: '"' :: rest => scanMultiBasic false (skipFirstNewline rest)
  | '"' :: rest => scanBasic rest
  | '\x27' :: '\x27' :: '\x27' :: rest => scanMultiLiteral (skipFirstNewline rest)
  | '\x27' :: rest => scanLiteral rest
  | _ => none

/-! ## Keys -/

def isBare (c : Char) : Bool := c.isAlphanum || c = '_' || c = '-'

def scanSimpleKey : List Char → Option (String × List Char)
  | '"' :: rest => (scanBasic rest).map fun (s, rest) => (String.ofList s, rest)
  | '\x27' :: rest => (scanLiteral rest).map fun (s, rest) => (String.ofList s, rest)
  | cs => match cs.takeWhile isBare with
    | [] => none
    | key => some (String.ofList key, cs.dropWhile isBare)

/-- How many parts a key may have. -/
def keyLimit : Nat := 79

/-- A dotted key: its parts, of which the number is bounded, and blanks around them. -/
def scanKey : Nat → List Char → Option (List String × List Char)
  | 0, _ => none
  | parts + 1, cs => do
    let (key, rest) ← scanSimpleKey (skipSpace cs)
    match skipSpace rest with
    | '.' :: rest =>
      let (keys, rest) ← scanKey parts rest
      return (key :: keys, rest)
    | rest => return ([key], rest)

/-! ## Numbers -/

/-- Digits, with single underscores between them, behind a digit. -/
def moreDigits (isDigit : Char → Bool) : List Char → List Char × List Char
  | '_' :: c :: rest =>
    if isDigit c then
      let (ds, rest) := moreDigits isDigit rest
      (c :: ds, rest)
    else ([], '_' :: c :: rest)
  | c :: rest =>
    if isDigit c then
      let (ds, rest) := moreDigits isDigit rest
      (c :: ds, rest)
    else ([], c :: rest)
  | [] => ([], [])

def scanDigits (isDigit : Char → Bool) : List Char → Option (List Char × List Char)
  | c :: rest =>
    if isDigit c then
      let (ds, rest) := moreDigits isDigit rest
      some (c :: ds, rest)
    else none
  | [] => none

/-- The digits of a decimal integer: no zero in front. -/
def scanWhole : List Char → Option (List Char × List Char)
  | '0' :: rest => some (['0'], rest)
  | cs => scanDigits Char.isDigit cs

def scanSign : List Char → Bool × List Char
  | '-' :: rest => (true, rest)
  | '+' :: rest => (false, rest)
  | cs => (false, cs)

def int? (negative : Bool) (n : Nat) : Option Toml :=
  if negative then if n ≤ int64Limit then some (.int (-(n : Int))) else none
  else if n < int64Limit then some (.int n) else none

def ofDigits (base : Nat) (ds : List Char) : Nat :=
  ds.foldl (fun n d => n * base + (hexValue? d).getD 0) 0

def scanRadix (base : Nat) (isDigit : Char → Bool) (cs : List Char) :
    Option (Toml × List Char) := do
  let (ds, rest) ← scanDigits isDigit cs
  let i ← int? false (ofDigits base ds)
  return (i, rest)

/-- The digits of a fraction, none if there is no point. -/
def scanFraction : List Char → Option (List Char × List Char)
  | '.' :: rest => scanDigits Char.isDigit rest
  | cs => some ([], cs)

def scanExponent : List Char → Option (Option Int × List Char)
  | c :: rest =>
    if c = 'e' || c = 'E' then do
      let (negative, rest) := scanSign rest
      let (ds, rest) ← scanDigits Char.isDigit rest
      let n : Int := Decimal.value ds
      return (some (if negative then -n else n), rest)
    else some (none, c :: rest)
  | [] => some (none, [])

/-- A decimal integer or a number with a fraction or an exponent. A positive one that is too large
for a double is refused. -/
def scanDecimal (cs : List Char) : Option (Toml × List Char) := do
  let (negative, rest) := scanSign cs
  let (whole, rest) ← scanWhole rest
  let (fraction, rest) ← scanFraction rest
  let (exponent, rest) ← scanExponent rest
  if fraction.isEmpty && exponent.isNone then
    let i ← int? negative (Decimal.value whole)
    return (i, rest)
  else
    let d : Decimal := ⟨negative, Decimal.value (whole ++ fraction),
      some (exponent.getD 0 - (fraction.length : Int))⟩
    if !negative && d.overflows then none else return (.float, rest)

def scanNumber : List Char → Option (Toml × List Char)
  | '0' :: 'x' :: rest => scanRadix 16 (fun c => (hexValue? c).isSome) rest
  | '0' :: 'o' :: rest => scanRadix 8 (fun c => '0' ≤ c && c ≤ '7') rest
  | '0' :: 'b' :: rest => scanRadix 2 (fun c => c = '0' || c = '1') rest
  | cs => match (scanSign cs).2 with
    | 'i' :: 'n' :: 'f' :: rest => some (.float, rest)
    | 'n' :: 'a' :: 'n' :: rest => some (.float, rest)
    | _ => scanDecimal cs

/-! ## Dates and times -/

def digitsOf? (n : Nat) (cs : List Char) : Option (Nat × List Char) :=
  let ds := cs.take n
  if ds.length = n && ds.all Char.isDigit then some (Decimal.value ds, cs.drop n) else none

def within? (low high : Nat) (read : Option (Nat × List Char)) : Option (Nat × List Char) :=
  read.filter fun (n, _) => low ≤ n && n ≤ high

def char? (c : Char) : List Char → Option (List Char)
  | d :: rest => if d = c then some rest else none
  | [] => none

def isLeapYear (y : Nat) : Bool := y % 4 = 0 && (y % 100 ≠ 0 || y % 400 = 0)

def daysIn (year month : Nat) : Nat :=
  if month = 2 then if isLeapYear year then 29 else 28
  else if month = 4 || month = 6 || month = 9 || month = 11 then 30
  else 31

def scanDate (cs : List Char) : Option (List Char) := do
  let (year, rest) ← digitsOf? 4 cs
  let rest ← char? '-' rest
  let (month, rest) ← within? 1 12 (digitsOf? 2 rest)
  let rest ← char? '-' rest
  let (_, rest) ← within? 1 (daysIn year month) (digitsOf? 2 rest)
  return rest

def scanSecondFraction : List Char → Option (List Char)
  | '.' :: rest => match Decimal.digits rest with
    | ([], _) => none
    | (_, rest) => some rest
  | cs => some cs

def scanTime (cs : List Char) : Option (List Char) := do
  let (_, rest) ← within? 0 23 (digitsOf? 2 cs)
  let rest ← char? ':' rest
  let (_, rest) ← within? 0 59 (digitsOf? 2 rest)
  let rest ← char? ':' rest
  let (_, rest) ← within? 0 60 (digitsOf? 2 rest)
  scanSecondFraction rest

def scanOffset : List Char → Option (List Char)
  | 'Z' :: rest => some rest
  | 'z' :: rest => some rest
  | c :: rest =>
    if c = '+' || c = '-' then do
      let (_, rest) ← within? 0 23 (digitsOf? 2 rest)
      let rest ← char? ':' rest
      let (_, rest) ← within? 0 59 (digitsOf? 2 rest)
      return rest
    else some (c :: rest)
  | [] => some []

/-- What follows a date: a time of day with its offset, or nothing. -/
def scanTimeOfDay : List Char → Option (List Char)
  | c :: rest =>
    if c = 'T' || c = 't' || c = ' ' then
      match scanTime rest with
      | some rest => scanOffset rest
      | none => some (c :: rest)
    else some (c :: rest)
  | [] => some []

def scanDateTime (cs : List Char) : Option (List Char) :=
  match scanDate cs with
  | some rest => scanTimeOfDay rest
  | none => scanTime cs

/-! ## Values -/

/-- How deep arrays and inline tables may lie inside each other. -/
def nestingLimit : Nat := 79

/-- A value that is neither an array nor an inline table. -/
def scanScalar : List Char → Option (Toml × List Char)
  | 't' :: 'r' :: 'u' :: 'e' :: rest => some (.bool true, rest)
  | 'f' :: 'a' :: 'l' :: 's' :: 'e' :: rest => some (.bool false, rest)
  | cs => match scanString cs with
    | some (s, rest) => some (.str (String.ofList s), rest)
    | none => match scanDateTime cs with
      | some rest => some (.dateTime, rest)
      | none => scanNumber cs

/-- Puts an entry under a key that is free. -/
def insertNew (key : String) (value : Toml) (entries : Entries) : Option Entries :=
  if (entries.lookup key).isSome then none else some (entries ++ [(key, value)])

def replaceAt (key : String) (value : Toml) (entries : Entries) : Entries :=
  entries.map fun e => if e.1 == key then (key, value) else e

/-- Goes from a table along a path and acts on the table at its end. Tables that are not there are
made, with the given origin. A dotted path does not go into a table that has a header or stands as
a value; a header does not go into one that stands as a value. Of repeated tables the last is
meant. -/
def alterAt (made : TableOrigin) (act : TableOrigin → Entries → Option (TableOrigin × Entries)) :
    List String → TableOrigin → Entries → Option (TableOrigin × Entries)
  | [], origin, entries => act origin entries
  | key :: path, origin, entries =>
    match entries.lookup key with
    | none => do
      let (o, es) ← alterAt made act path made []
      return (origin, entries ++ [(key, .table o es)])
    | some (.table found es) =>
      if found = .inline || (made = .dotted && found = .header) then none
      else do
        let (o, es) ← alterAt made act path found es
        return (origin, replaceAt key (.table o es) entries)
    | some (.tables elements) =>
      match elements.getLast? with
      | none => none
      | some es => do
        let (_, es) ← alterAt made act path .header es
        return (origin, replaceAt key (.tables (elements.dropLast ++ [es])) entries)
    | some _ => none

/-- Assigns to a dotted key, seen from a table. Where the key has more than one part, the table that
takes the value has to be one that dotted keys made. -/
def assign (path : List String) (value : Toml) (origin : TableOrigin) (entries : Entries) :
    Option (TableOrigin × Entries) :=
  match path.getLast? with
  | none => none
  | some key =>
    alterAt .dotted (fun o es =>
      if (o = .dotted) = (path.dropLast = []) then none
      else (insertNew key value es).map (o, ·)) path.dropLast origin entries

mutual

/-- One value, on which the text stands. The fuel bounds the depth of the calls, `depth` the
nesting; twice the length of the text is fuel enough. -/
def scanValue : Nat → Nat → List Char → Option (Toml × List Char)
  | 0, _, _ => none
  | fuel + 1, depth, cs => match cs with
    | '[' :: rest => match depth with
      | 0 => none
      | depth + 1 => match skipTrivia false rest with
        | ']' :: rest => some (.arr [], rest)
        | rest => (scanItems fuel depth rest).map fun (xs, rest) => (.arr xs, rest)
    | '\x7b' :: rest => match depth with
      | 0 => none
      | depth + 1 => match skipSpace rest with
        | '\x7d' :: rest => some (.table .inline [], rest)
        | rest => (scanPairs fuel depth [] rest).map fun (es, rest) => (.table .inline es, rest)
    | _ => scanScalar cs

/-- The items of an array, to behind its bracket. -/
def scanItems : Nat → Nat → List Char → Option (List Toml × List Char)
  | 0, _, _ => none
  | fuel + 1, depth, cs => do
    let (x, rest) ← scanValue fuel depth cs
    match skipTrivia false rest with
    | ']' :: rest => return ([x], rest)
    | ',' :: rest => match skipTrivia false rest with
      | ']' :: rest => return ([x], rest)
      | rest =>
        let (xs, rest) ← scanItems fuel depth rest
        return (x :: xs, rest)
    | _ => none

/-- The assignments of an inline table, to behind its brace. -/
def scanPairs : Nat → Nat → Entries → List Char → Option (Entries × List Char)
  | 0, _, _, _ => none
  | fuel + 1, depth, entries, cs => do
    let (path, rest) ← scanKey keyLimit cs
    let rest ← char? '=' rest
    let (x, rest) ← scanValue fuel depth (skipSpace rest)
    let (_, entries) ← assign path x .inline entries
    match skipSpace rest with
    | '\x7d' :: rest => return (entries, rest)
    | ',' :: rest => scanPairs fuel depth entries rest
    | _ => none

end

/-! ## Lines -/

inductive Line where
  | header (path : List String)
  /-- A header in double brackets. -/
  | element (path : List String)
  | assignment (path : List String) (value : Toml)

def scanHeader (cs : List Char) : Option (List String × List Char) := do
  let (path, rest) ← scanKey keyLimit cs
  let rest ← char? ']' rest
  return (path, rest)

/-- One line that says something, without its end. -/
def scanLine : List Char → Option (Line × List Char)
  | '[' :: '[' :: rest => do
    let (path, rest) ← scanHeader rest
    let rest ← char? ']' rest
    return (.element path, rest)
  | '[' :: rest => (scanHeader rest).map fun (path, rest) => (.header path, rest)
  | cs => do
    let (path, rest) ← scanKey keyLimit cs
    let rest ← char? '=' rest
    let (x, rest) ← scanValue (2 * rest.length + 2) nestingLimit (skipSpace rest)
    return (.assignment path x, rest)

/-- The lines of a text. Each takes a character at least, so the length of the text is fuel enough.
-/
def scanLines : Nat → List Char → Option (List Line)
  | 0, _ => none
  | fuel + 1, cs => match skipTrivia false cs with
    | [] => some []
    | rest => do
      let (line, rest) ← scanLine rest
      let rest ← lineEnd? rest
      let lines ← scanLines fuel rest
      return line :: lines

/-- A mark of byte order at the start is passed over. -/
def skipMark : List Char → List Char
  | '\ufeff' :: rest => rest
  | cs => cs

def lines? (text : String) : Option (List Line) :=
  let cs := skipMark text.toList
  scanLines (cs.length + 1) cs

end Lineage.Toml
