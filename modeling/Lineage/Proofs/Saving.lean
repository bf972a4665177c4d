import Lineage.Proofs.FileTrees
import Lineage.Proofs.Reloading
import Lineage.Storage

/-!
# Graph sets that are saved and restored

The graphs of a set go into one directory, each to a place of its own (`locate_ne_of_name_ne`), so
after a save that succeeds every one of them is found there with its text (`saved_of_save`), and
restoring the directory gives the set back (`run_restore_of_save`). Whether a save succeeds does not
depend on what is in the graphs (`alike_save`).
-/

namespace Lineage

open Std

/-! ## Paths in a directory -/

namespace Graph

/-- The path of a graph ends in the name of its file. -/
theorem exists_segments_filePath (directory : String) {name : String} (hname : '/' ∉ name.toList) :
    ∃ before, Path.segments (filePath directory name).toList
      = before ++ [(name ++ ".json").toList] := by
  have hplain : '/' ∉ (name ++ ".json").toList := by simp [hname]
  have hrelative : ((name ++ ".json").toList.head? == some '/') = false := by
    rw [beq_eq_false_iff_ne]
    exact fun h => hplain (List.mem_of_mem_head? h)
  have hsingle := List.splitOn_eq_singleton hplain
  unfold filePath Path.join Path.isAbsolute Path.segments
  simp only [hrelative, Bool.false_or]
  split_ifs with hempty hslash
  · exact ⟨[], hsingle⟩
  · obtain ⟨before, hbefore⟩ := List.getLast?_eq_some_iff.1 (beq_iff_eq.1 hslash)
    refine ⟨before.splitOn '/', ?_⟩
    rw [String.toList_append, hbefore, List.append_assoc, List.singleton_append,
      List.splitOn_append_cons_self, hsingle]
  · refine ⟨directory.toList.splitOn '/', ?_⟩
    rw [String.toList_append, String.toList_append, List.append_assoc, ← hsingle]
    exact List.splitOn_append_cons_self _ _

end Graph

namespace FileTree

variable {t u : FileTree}

theorem enter_fileName (l : Location) (name : String) :
    enter l (name ++ ".json").toList = l ++ [name ++ ".json"] := by
  have hlength : 5 ≤ (name ++ ".json").toList.length := by simp
  unfold enter Path.isIdle
  rw [if_neg, if_neg, String.ofList_toList]
  · intro h
    rw [h] at hlength
    exact absurd hlength (by decide)
  · rw [Bool.or_eq_true, beq_iff_eq, beq_iff_eq]
    rintro (h | h)
    · rw [h] at hlength
      exact absurd hlength (by decide)
    · rw [h] at hlength
      exact absurd hlength (by decide)

theorem getLast?_of_locate {directory name : String} {l : Location} (hname : '/' ∉ name.toList)
    (h : t.locate (Graph.filePath directory name).toList = .ok l) :
    l.getLast? = some (name ++ ".json") := by
  obtain ⟨before, hbefore⟩ := Graph.exists_segments_filePath directory hname
  unfold locate at h
  rw [hbefore, walk_append] at h
  rcases hbase : t.walk (t.start (Graph.filePath directory name).toList) before with e | base
  · rw [hbase] at h
    cases h
  · rw [hbase] at h
    have h : t.walk base [(name ++ ".json").toList] = .ok l := h
    unfold walk at h
    split at h
    · split_ifs at h
      rw [enter_fileName] at h
      cases h
      simp
    · cases h
    · cases h

/-- Graphs of different names have different places in a directory. -/
theorem locate_ne_of_name_ne {directory name other : String} (hname : '/' ∉ name.toList)
    (hother : '/' ∉ other.toList) (hne : name ≠ other) (l : Location)
    (h : t.locate (Graph.filePath directory name).toList = .ok l) :
    t.locate (Graph.filePath directory other).toList ≠ .ok l := by
  intro h'
  have heq : name ++ ".json" = other ++ ".json" :=
    Option.some.inj ((getLast?_of_locate hname h).symm.trans (getLast?_of_locate hother h'))
  have hlist := congrArg String.toList heq
  rw [String.toList_append, String.toList_append] at hlist
  exact hne (String.toList_inj.1 (List.append_cancel_right hlist))

end FileTree

/-! ## Programs on a file tree -/

namespace FileTree

variable {α β : Type}

/-- Runs a program on a tree, and yields its result with the tree it leaves. -/
def run (t : FileTree) (x : ExceptT StoreError (StateM FileTree) α) :
    Except StoreError α × FileTree :=
  x.run.run t

variable {x : ExceptT StoreError (StateM FileTree) α}
  {f : α → ExceptT StoreError (StateM FileTree) β} {t t' u : FileTree}

theorem run_bind : t.run (x >>= f) = match t.run x with
    | (.ok a, t') => t'.run (f a)
    | (.error e, t') => (.error e, t') := by
  unfold run
  rw [ExceptT.run_bind, StateT.run_bind]
  rcases x.run.run t with ⟨_ | a, t'⟩
  · rfl
  · rfl

/-- A program that succeeds has succeeded in each of its steps. -/
theorem exists_of_run_bind {b : β} (h : t.run (x >>= f) = (.ok b, u)) :
    ∃ a t', t.run x = (.ok a, t') ∧ t'.run (f a) = (.ok b, u) := by
  rw [run_bind] at h
  split at h
  · next a t' hx => exact ⟨a, t', hx, h⟩
  · cases h

theorem run_bind_of_ok {a : α} (h : t.run x = (.ok a, t')) : t.run (x >>= f) = t'.run (f a) := by
  rw [run_bind, h]

theorem run_fileOperation (x : StateM FileTree (Except FileError α)) (t : FileTree) :
    t.run (fileOperation x) = ((x.run t).1.mapError .file, (x.run t).2) :=
  rfl

theorem exists_of_run_fileOperation {x : StateM FileTree (Except FileError α)} {a : α}
    (h : t.run (fileOperation x) = (.ok a, u)) : x.run t = (.ok a, u) := by
  rw [run_fileOperation] at h
  rcases hx : x.run t with ⟨_ | b, t'⟩
  · rw [hx] at h
    cases h
  · rw [hx] at h
    cases h
    rfl

end FileTree

/-! ## Saving -/

theorem GraphName.slash_not_mem (name : GraphName) : '/' ∉ name.name.toList := by
  cases name <;> decide

theorem GraphName.ofName?_name (name : GraphName) : ofName? name.name = some name := by
  cases name <;> decide

theorem GraphName.name_injective {name other : GraphName} (h : name.name = other.name) :
    name = other :=
  Option.some.inj ((ofName?_name name).symm.trans ((congrArg ofName? h).trans (ofName?_name other)))

theorem GraphName.mem_all (name : GraphName) : name ∈ GraphName.all := by
  cases name <;> decide

/-- Each graph goes by the name it is kept under. -/
def GraphSet.Named (s : GraphSet) : Prop := ∀ name : GraphName, (s.get name).name = name.name

theorem GraphSet.named_empty : GraphSet.empty.Named := by
  intro name
  cases name <;> rfl

namespace FileTree

variable {t u : FileTree} {s : GraphSet} {g : Graph} {directory : String}

/-- The text of a graph is in the file of its name. -/
def Saved (t : FileTree) (directory : String) (g : Graph) : Prop :=
  t.find? (Graph.filePath directory g.name) = some (.file g.exportText)

/-- Dumping makes the directory and then writes the file. -/
theorem exists_of_dump {path : String} (h : t.run (g.dump directory) = (.ok path, u)) :
    ∃ t₁, createDirectories (directory.length + 1) directory t = (.ok (), t₁)
      ∧ t₁.write (Graph.filePath directory g.name) g.exportText = .ok u := by
  unfold Graph.dump at h
  obtain ⟨⟨⟩, t₁, hcreate, h⟩ := exists_of_run_bind h
  obtain ⟨⟨⟩, t₂, hwrite, h⟩ := exists_of_run_bind h
  cases h
  refine ⟨t₁, exists_of_run_fileOperation hcreate, ?_⟩
  have hwrite : change (fun t => t.write (Graph.filePath directory g.name) g.exportText) t₁
      = (.ok (), u) := exists_of_run_fileOperation hwrite
  unfold change at hwrite
  split at hwrite
  · next heq =>
    cases hwrite
    exact heq
  · cases hwrite

/-- A graph that is dumped is in its file, and those of other names stay where they are. -/
theorem saved_of_dump {path : String} (h : t.run (g.dump directory) = (.ok path, u)) :
    u.Saved directory g ∧ ∀ other : Graph, '/' ∉ g.name.toList → '/' ∉ other.name.toList →
      g.name ≠ other.name → t.Saved directory other → u.Saved directory other := by
  obtain ⟨t₁, hcreate, hput⟩ := exists_of_dump h
  have hgrows : t.Grows t₁ := by
    have hall := grows_createDirectories (directory.length + 1) directory t
    rwa [hcreate] at hall
  refine ⟨find?_of_write hput, fun other hname hother hne hsaved => ?_⟩
  exact find?_of_write_of_ne hput (locate_ne_of_name_ne hname hother hne) (hgrows.find? hsaved)

theorem saved_of_forM (hs : s.Named) : ∀ (names : List GraphName) {t u : FileTree}, names.Nodup →
    t.run (names.forM fun name => do let _ ← (s.get name).dump directory) = (.ok (), u) →
      (∀ name ∈ names, u.Saved directory (s.get name))
        ∧ ∀ name ∉ names, t.Saved directory (s.get name) → u.Saved directory (s.get name)
  | [], t, u, _, h => by
    cases h
    simp
  | name :: names, t, u, hnd, h => by
    obtain ⟨hnew, hnd⟩ := List.nodup_cons.1 hnd
    rw [List.forM_eq_forM, List.forM_cons] at h
    obtain ⟨⟨⟩, t₁, hdump, h⟩ := exists_of_run_bind h
    obtain ⟨path, t₂, hdump, hpure⟩ := exists_of_run_bind hdump
    cases hpure
    obtain ⟨hself, hothers⟩ := saved_of_dump hdump
    obtain ⟨hrest, hkept⟩ := saved_of_forM hs names hnd h
    have hslash : ∀ name : GraphName, '/' ∉ (s.get name).name.toList := fun name => by
      rw [hs name]
      exact name.slash_not_mem
    refine ⟨fun other hmem => ?_, fun other hmem hsaved => ?_⟩
    · rcases List.mem_cons.1 hmem with rfl | hmem
      · exact hkept _ hnew hself
      · exact hrest other hmem
    · rw [List.mem_cons, not_or] at hmem
      refine hkept other hmem.2 (hothers _ (hslash name) (hslash other) ?_ hsaved)
      rw [hs name, hs other]
      exact fun heq => hmem.1 (GraphName.name_injective heq).symm

/-- After a save every graph of the set is in its file. -/
theorem saved_of_save (hs : s.Named) (h : t.run (s.save directory) = (.ok (), u))
    (name : GraphName) : u.Saved directory (s.get name) :=
  (saved_of_forM hs GraphName.all (by decide) h).1 name name.mem_all

/-! ## Restoring -/

theorem run_restore_of_saved (name : GraphName) {g' : Graph} (hname : g.name = name.name)
    (hload : Graph.load name.name g.exportText = .ok g') (h : u.Saved directory g) :
    u.run (Graph.restore directory name) = (.ok g', u) := by
  unfold Saved at h
  rw [hname] at h
  have hpresent : u.run (liftM (Files.isPresent (Graph.filePath directory name.name)
      : StateM FileTree Bool)) = (.ok true, u) := by
    show (Except.ok (u.isPresent _), u) = _
    rw [isPresent_of_find? h]
  have hread : u.run (fileOperation (Files.read (Graph.filePath directory name.name)))
      = (.ok g.exportText, u) := by
    show ((u.read _).mapError StoreError.file, u) = _
    rw [read_of_find? h]
    rfl
  unfold Graph.restore
  refine (run_bind_of_ok hpresent).trans ?_
  unfold Graph.loadFile
  refine (run_bind_of_ok hread).trans ?_
  show (Graph.load name.name g.exportText, u) = _
  rw [hload]

/-- Restoring what was saved gives the set back, where its graphs survive their export. -/
theorem run_restore_of_save (hs : s.Named)
    (hload : ∀ name, Graph.load name.name (s.get name).exportText = .ok (s.get name))
    (h : t.run (s.save directory) = (.ok (), u)) :
    u.run (GraphSet.restore directory) = (.ok s, u) := by
  have hgraph : ∀ name, u.run (Graph.restore directory name) = (.ok (s.get name), u) :=
    fun name => run_restore_of_saved name (hs name) (hload name) (saved_of_save hs h name)
  unfold GraphSet.restore
  refine (run_bind_of_ok (hgraph .main)).trans ?_
  refine (run_bind_of_ok (hgraph .buffer)).trans ?_
  refine (run_bind_of_ok (hgraph .mock)).trans ?_
  exact (run_bind_of_ok (hgraph .history)).trans rfl

/-! ## Saves that succeed alike -/

section Alike

variable {α β : Type} {x y : ExceptT StoreError (StateM FileTree) α}
  {f f' : α → ExceptT StoreError (StateM FileTree) β}

/-- Two programs end alike on trees with the same paths. -/
def RunAlike (x y : ExceptT StoreError (StateM FileTree) α) : Prop :=
  ∀ t u : FileTree, t.SamePaths u → SameEnd (t.run x) (u.run y)

theorem RunAlike.bind (h : RunAlike x y) (hf : ∀ a, RunAlike (f a) (f' a)) :
    RunAlike (x >>= f) (y >>= f') := by
  intro t u hsame
  rw [run_bind, run_bind]
  have hend := h t u hsame
  generalize t.run x = p, u.run y = q at hend
  obtain @⟨r, t₁, u₁, h₁⟩ := hend
  rcases r with e | a
  · exact .mk _ h₁
  · exact hf a t₁ u₁ h₁

theorem RunAlike.pure (a : α) : RunAlike (Pure.pure a) (Pure.pure a) :=
  fun _ _ h => .mk _ h

theorem RunAlike.fileOperation {x y : StateM FileTree (Except FileError α)} (h : Alike x y) :
    RunAlike (Lineage.fileOperation x) (Lineage.fileOperation y) := by
  intro t u hsame
  rw [run_fileOperation, run_fileOperation]
  have hend := h t u hsame
  generalize x.run t = p, y.run u = q at hend
  obtain ⟨r, h₁⟩ := hend
  exact .mk _ h₁

end Alike

theorem alike_dump {g' : Graph} (hname : g.name = g'.name) (directory : String) :
    RunAlike (g.dump directory) (g'.dump directory) := by
  unfold Graph.dump
  rw [hname]
  refine RunAlike.bind (RunAlike.fileOperation (alike_createDirectories directory)) fun _ => ?_
  exact RunAlike.bind (RunAlike.fileOperation (alike_write _ _ _)) fun _ => RunAlike.pure _

/-- Whether a set can be saved has nothing to do with what is in its graphs. -/
theorem alike_save {s' : GraphSet} (hs : s.Named) (hs' : s'.Named) (directory : String) :
    RunAlike (s.save directory) (s'.save directory) := by
  unfold GraphSet.save
  induction GraphName.all with
  | nil => exact RunAlike.pure _
  | cons name names ih =>
    have hname : (s.get name).name = (s'.get name).name := (hs name).trans (hs' name).symm
    exact RunAlike.bind
      (RunAlike.bind (alike_dump hname directory) fun _ => RunAlike.pure _) fun _ => ih

end FileTree

end Lineage
