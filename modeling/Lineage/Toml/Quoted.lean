/-!
# Quoting TOML strings

A string is written in the first style that needs no escapes: between quotes on one line, between
single quotes, between three quotes over several lines, between three single quotes. Where all fail
it is escaped, over several lines if it has a line break (`quote`). A style over several lines
begins with a line break of its own if the string has one.
-/

namespace Lineage.Toml

/-- The length of the longest run of a character. -/
def longestRun (c : Char) (s : List Char) : Nat :=
  (s.foldl (fun (longest, run) d =>
    let run := if d = c then run + 1 else 0
    (max longest run, run)) (0, 0)).1

/-- A control character that only an escape can express. -/
def needsCode (c : Char) : Bool := c ≠ '\t' && c ≠ '\n' && (c.toNat < 32 || c.toNat = 127)

inductive Style where
  | basic
  | literal
  | multiBasic
  | multiLiteral
deriving DecidableEq, Repr

def styleOf (s : List Char) : Style :=
  let code := s.any needsCode
  let backslash := s.contains '\\'
  let newline := s.contains '\n'
  let quotes := longestRun '"' s
  let singles := longestRun '\x27' s
  if !code && !backslash && quotes = 0 && !newline then .basic
  else if !code && singles = 0 && !newline then .literal
  else if !code && !backslash && quotes ≤ 2 then .multiBasic
  else if !code && singles ≤ 2 then .multiLiteral
  else if newline then .multiBasic
  else .basic

def hexDigit (n : Nat) : Char := if n < 10 then Char.ofNat (48 + n) else Char.ofNat (55 + n)

/-- A character between quotes; a line break stays as it is where several lines are allowed. -/
def escape (multi : Bool) (c : Char) : List Char :=
  if c = '\x08' then ['\\', 'b']
  else if c = '\t' then ['\\', 't']
  else if c = '\n' then if multi then ['\n'] else ['\\', 'n']
  else if c = '\x0c' then ['\\', 'f']
  else if c = '\r' then ['\\', 'r']
  else if c = '\\' then ['\\', '\\']
  else if c.toNat < 32 || c.toNat = 127 then
    ['\\', 'u', '0', '0', hexDigit (c.toNat / 16), hexDigit (c.toNat % 16)]
  else [c]

/-- The inside of a quoted string. A quote is escaped where it would be one more in a row than the
style allows; `run` counts those before it. -/
def escapeAll (multi : Bool) : Nat → List Char → List Char
  | _, [] => []
  | run, c :: cs =>
    if c = '"' then
      if (if multi then 2 else 0) ≤ run then '\\' :: '"' :: escapeAll multi 0 cs
      else '"' :: escapeAll multi (run + 1) cs
    else escape multi c ++ escapeAll multi 0 cs

def singleQuotes : List Char := ['\x27', '\x27', '\x27']

def quotes : List Char := ['"', '"', '"']

/-- The line break that a string over several lines begins with. -/
def lead (s : List Char) : List Char := if s.contains '\n' then ['\n'] else []

def quote (text : String) : List Char :=
  let s := text.toList
  match styleOf s with
  | .basic => '"' :: escapeAll false 0 s ++ ['"']
  | .literal => '\x27' :: s ++ ['\x27']
  | .multiBasic => quotes ++ lead s ++ escapeAll true 0 s ++ quotes
  | .multiLiteral => singleQuotes ++ lead s ++ s ++ singleQuotes

end Lineage.Toml
