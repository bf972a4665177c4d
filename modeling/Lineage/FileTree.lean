import Lineage.Files
import Lineage.Path
import Std.Data.ExtTreeMap
import Std.Data.ExtTreeSet

/-!
# File trees

A file system as a value: directories and files under the segments of their absolute paths, and a
working directory. Every segment of a path but the last has to name a directory, and the operations
fail as those of a system do (`instance : Files`). A path is judged where it leads, so `a/../b`
needs a directory `a`. Paths and their segments are limited in length, counted in bytes.
-/

namespace Lineage

open Std

inductive FileNode where
  | directory
  | file (text : String)
deriving DecidableEq, Repr

/-- The segments of an absolute path. -/
abbrev Location := List String

structure FileTree where
  working : Location
  nodes : ExtTreeMap Location FileNode
deriving DecidableEq

namespace FileTree

def node? (t : FileTree) (l : Location) : Option FileNode :=
  if l = [] then some .directory else t.nodes[l]?

def put (t : FileTree) (l : Location) (n : FileNode) : FileTree :=
  { t with nodes := t.nodes.insert l n }

/-- A tree with nothing but a working directory in it. -/
def empty (working : Location) : FileTree where
  working
  nodes := ExtTreeMap.ofList ((List.range working.length).map fun n =>
    (working.take (n + 1), FileNode.directory))

/-- Where one more segment leads from a directory. -/
def enter (l : Location) (segment : List Char) : Location :=
  if Path.isIdle segment then l
  else if segment = ['.', '.'] then l.dropLast
  else l ++ [String.ofList segment]

/-- The most bytes in a segment. -/
def segmentLimit : Nat := 255

/-- The least number of bytes that is too much for a path. -/
def pathLimit : Nat := 4096

def walk (t : FileTree) : Location → List (List Char) → Except FileError Location
  | l, [] => .ok l
  | l, s :: ss =>
    match t.node? l with
    | some .directory =>
      if segmentLimit < (String.ofList s).utf8ByteSize then .error .nameTooLong
      else walk t (enter l s) ss
    | some (.file _) => .error .notDirectory
    | none => .error .notFound

/-- What is wrong with a path wherever it leads. -/
def checkPath (path : String) : Except FileError Unit :=
  if !isPathText path then .error .invalidName
  else if path.isEmpty then .error .notFound
  else if pathLimit ≤ path.utf8ByteSize then .error .nameTooLong
  else .ok ()

/-- Without the slashes at its end, if anything is left then. -/
def bare (path : String) : List Char :=
  match path.toList.reverse.dropWhile (· == '/') with
  | [] => path.toList
  | cs => cs.reverse

/-- Where the walk along a path starts. -/
def start (t : FileTree) (path : List Char) : Location :=
  if path.head? == some '/' then [] else t.working

/-- The place that a path leads to, which need not be taken. -/
def locate (t : FileTree) (path : List Char) : Except FileError Location :=
  t.walk (t.start path) (Path.segments path)

/-- The directory that the last segment of a path is looked up in. -/
def locateAbove (t : FileTree) (path : List Char) : Except FileError Location :=
  t.walk (t.start path) ((Path.segments path).dropLast ++ [[]])

def read (t : FileTree) (path : String) : Except FileError String := do
  checkPath path
  match t.node? (← t.locate path.toList) with
  | some (.file text) => return text
  | some .directory => throw .isDirectory
  | none => throw .notFound

/-- A path that ends in a slash names a directory, whether there is one or not, and no file is
written there. -/
def write (t : FileTree) (path text : String) : Except FileError FileTree := do
  checkPath path
  if path.toList.getLast? == some '/' then
    let _ ← t.locateAbove (bare path)
    throw .isDirectory
  else
    let l ← t.locate path.toList
    match t.node? l with
    | some .directory => throw .isDirectory
    | _ => return t.put l (.file text)

def makeDirectory (t : FileTree) (path : String) : Except FileError FileTree := do
  checkPath path
  let l ← t.locate (bare path)
  match t.node? l with
  | some _ => throw .alreadyExists
  | none => return t.put l .directory

/-- What is at a path, if it leads anywhere. -/
def find? (t : FileTree) (path : String) : Option FileNode :=
  match checkPath path, t.locate path.toList with
  | .ok (), .ok l => t.node? l
  | _, _ => none

def isDirectory (t : FileTree) (path : String) : Bool := t.find? path == some .directory

def isPresent (t : FileTree) (path : String) : Bool := (t.find? path).isSome

/-- Runs an operation that changes the tree; a failure leaves it as it was. -/
def change (f : FileTree → Except FileError FileTree) : StateM FileTree (Except FileError Unit) :=
  fun t => match f t with
    | .ok t => (.ok (), t)
    | .error e => (.error e, t)

/-- Makes a directory, where one that is there is as good. -/
def assureDirectory (path : String) : StateM FileTree (Except FileError Unit) := fun t =>
  match t.makeDirectory path with
  | .ok t => (.ok (), t)
  | .error e => (if t.isDirectory path then .ok () else .error e, t)

/-- Makes a directory and first those above it, which stay even if the last step fails. The parent
of a path is shorter, so its length bounds the number of steps. -/
def createDirectories : Nat → String → StateM FileTree (Except FileError Unit)
  | 0, _, t => (.ok (), t)
  | steps + 1, path, t =>
    if path.isEmpty then (.ok (), t)
    else match assureDirectory path t with
      | (.error .notFound, t) =>
        match Path.parent? path with
        | none => (.error (.other "failed to create whole tree"), t)
        | some above => match createDirectories steps above t with
          | (.ok (), t) => assureDirectory path t
          | failed => failed
      | done => done

/-- The files below the working directory as seen from it, by the text of their paths. -/
def files (t : FileTree) : List String :=
  let paths := t.nodes.toList.filterMap fun (l, n) =>
    if n = .directory || !t.working.isPrefixOf l then none
    else some ("/".intercalate (l.drop t.working.length))
  (ExtTreeSet.ofList paths).toList

instance : Files (StateM FileTree) where
  read path := fun t => (t.read path, t)
  write path text := change fun t => t.write path text
  createDirectories path := createDirectories (path.length + 1) path
  isPresent path := fun t => (t.isPresent path, t)
  workingDirectory := fun t => ("/" ++ "/".intercalate t.working, t)

end FileTree

end Lineage
