import Lineage.Json.Reader
import Lineage.Properties

/-!
# Reading records

How a record is taken out of a JSON value, which is an object or an array (`fields?`). A member of
an object that the record knows may come once only; one that it does not know is passed over,
however often it comes (`member?`). An array gives the values alone, and none too many. A table of
properties is always an object, and more lenient: the last value of a key counts (`asProperties?`).
-/

namespace Lineage.Json

/-- The value of a member: `none` if the name is repeated, `some none` if it is absent. -/
def member? (name : String) (members : List (String × Json)) : Option (Option Json) :=
  match members.filter fun m => m.1 == name with
  | [] => some none
  | [m] => some (some m.2)
  | _ => none

def required? (name : String) (members : List (String × Json)) : Option Json :=
  (member? name members).join

def asObject? : Json → Option (List (String × Json))
  | .obj ms => some ms
  | _ => none

def asArray? : Json → Option (List Json)
  | .arr xs => some xs
  | _ => none

/-- The members of a record. Besides an object a record may be an array, which gives the values of
its fields in order. It has to give all of those needed, and may break off among those that have a
value when they are absent. -/
def fields? (needed defaulted : List String) : Json → Option (List (String × Json))
  | .obj ms => some ms
  | .arr xs =>
    if needed.length ≤ xs.length ∧ xs.length ≤ needed.length + defaulted.length then
      some ((needed ++ defaulted).zip xs)
    else none
  | _ => none

def asString? : Json → Option String
  | .str s => some s
  | _ => none

/-- An integer literal from zero up to a limit, which it does not reach. -/
def asNat? (limit : Nat) : Json → Option Nat
  | .num d => d.toNat?.filter (· < limit)
  | _ => none

def asProperties? (j : Json) : Option Properties := do
  let ms ← j.asObject?
  let pairs ← ms.mapM fun (k, x) => x.asString?.map (k, ·)
  return pairs.foldl (fun ps (k, v) => ps.insert k v) ∅

def ofProperties (ps : Properties) : Json := .obj (ps.toList.map fun (k, v) => (k, .str v))

/-! ## Members of a given kind -/

def string? (name : String) (members : List (String × Json)) : Option String :=
  (required? name members).bind asString?

def nat? (limit : Nat) (name : String) (members : List (String × Json)) : Option Nat :=
  (required? name members).bind (asNat? limit)

/-- A table of properties, empty if the member is absent. -/
def properties? (name : String) (members : List (String × Json)) : Option Properties := do
  match ← member? name members with
  | none => return ∅
  | some j => j.asProperties?

section Records

variable {α : Type}

def record? (read : Json → Option α) (name : String) (members : List (String × Json)) : Option α :=
  (required? name members).bind read

/-- A list of records. -/
def list? (read : Json → Option α) (name : String) (members : List (String × Json)) :
    Option (List α) :=
  (required? name members).bind fun j => j.asArray?.bind fun xs => xs.mapM read

/-- A list of records, empty if the member is absent. -/
def listOrNil? (read : Json → Option α) (name : String) (members : List (String × Json)) :
    Option (List α) := do
  match ← member? name members with
  | none => return []
  | some j => j.asArray?.bind fun xs => xs.mapM read

end Records

/-- Text that may be missing; `null` counts as missing. -/
def stringOrNull? (name : String) (members : List (String × Json)) : Option (Option String) := do
  match ← member? name members with
  | none | some .null => return none
  | some j => j.asString?.map some

end Lineage.Json
