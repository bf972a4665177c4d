import Lineage.Proofs.Canonical
import Lineage.Proofs.Saving
import Mathlib.Data.List.TakeWhile

/-!
# Graphs that go by other names

A graph is written to the file of the name it goes by, and read from the file of the name it is kept
under. Nothing makes the two the same, so what a set gets back from a directory it was saved to is
told by the names its graphs go by: under each name the last graph that goes by it, and an empty one
where none does (`exists_restores_of_save`). A set whose graphs go by the names they are kept under
gets all of them back (`Restores.capture_eq`). A graph by a name of its own is in the directory, but
not in the set (`Restores.eq_nil`).
-/

namespace Lineage

open Std

/-- The last graph that goes by a name: the one in the file of the name, after all of them were
written. -/
def Graph.lastNamed (name : String) (gs : List Graph) : Option Graph :=
  gs.reverse.find? (·.name == name)

theorem Graph.lastNamed_cons (name : String) (g : Graph) (gs : List Graph) :
    lastNamed name (g :: gs)
      = (lastNamed name gs).or (if g.name = name then some g else none) := by
  unfold lastNamed
  rw [List.reverse_cons, List.find?_append]
  simp [List.find?_singleton]

/-! ## A directory that is there -/

namespace FileTree

variable {t u : FileTree} {directory : String}

theorem segments_append_replicate (cs : List Char) : ∀ n : Nat,
    Path.segments (cs ++ List.replicate n '/') = Path.segments cs ++ List.replicate n []
  | 0 => by simp
  | n + 1 => by
    have hlast : Path.segments (cs ++ List.replicate n '/' ++ ['/'])
        = Path.segments (cs ++ List.replicate n '/') ++ [[]] :=
      List.splitOn_append_cons_self _ _
    rw [List.replicate_succ', ← List.append_assoc, hlast, segments_append_replicate cs n,
      List.append_assoc, ← List.replicate_succ']

/-- A path is what is left without the slashes at its end, and these; and it starts as that does. -/
theorem exists_bare_append (path : String) :
    (∃ n, path.toList = bare path ++ List.replicate n '/')
      ∧ path.toList.head? = (bare path).head? := by
  rcases hrest : path.toList.reverse.dropWhile (· == '/') with _ | ⟨c, cs⟩
  · have hbare : bare path = path.toList := by
      unfold bare
      rw [hrest]
    rw [hbare]
    exact ⟨⟨0, (List.append_nil _).symm⟩, rfl⟩
  · have hbare : bare path = (c :: cs).reverse := by
      unfold bare
      rw [hrest]
    have hslashes : path.toList.reverse.takeWhile (· == '/')
        = List.replicate (path.toList.reverse.takeWhile (· == '/')).length '/' :=
      List.eq_replicate_of_mem fun c hc =>
        beq_iff_eq.1 (List.mem_takeWhile_imp (p := (· == '/')) hc)
    have happend : path.toList
        = bare path ++ List.replicate (path.toList.reverse.takeWhile (· == '/')).length '/' := by
      have hsplit := List.takeWhile_append_dropWhile (p := (· == '/')) (l := path.toList.reverse)
      rw [hrest, hslashes] at hsplit
      rw [hbare, ← List.reverse_inj, List.reverse_append, List.reverse_reverse,
        List.reverse_replicate, hsplit]
    refine ⟨⟨_, happend⟩, ?_⟩
    rw [happend, List.head?_append_of_ne_nil]
    rw [hbare]
    simp

theorem walk_replicate_nil : ∀ (n : Nat) {r l : Location},
    t.walk r (List.replicate n []) = .ok l → r = l
  | 0, _, _, h => Except.ok.inj h
  | n + 1, r, l, h => by
    rw [List.replicate_succ, walk] at h
    split at h
    · split_ifs at h
      exact walk_replicate_nil n h
    · cases h
    · cases h

theorem locate_bare {path : String} {l : Location} (h : t.locate path.toList = .ok l) :
    t.locate (bare path) = .ok l := by
  obtain ⟨⟨n, happend⟩, hhead⟩ := exists_bare_append path
  have hstart : t.start path.toList = t.start (bare path) := by rw [start, start, hhead]
  unfold locate at h ⊢
  rw [hstart, happend, segments_append_replicate, walk_append] at h
  obtain ⟨r, hr, hrest⟩ := exists_of_bind_ok h
  rwa [← walk_replicate_nil n hrest]

/-- There is no need to make a directory that is there. -/
theorem createDirectories_of_isDirectory (h : t.isDirectory directory = true) (steps : Nat) :
    createDirectories (steps + 1) directory t = (.ok (), t) := by
  obtain ⟨hcheck, l, hl, hnode⟩ := find?_eq_some_iff.1 (beq_iff_eq.1 h)
  have hmake : t.makeDirectory directory = .error .alreadyExists := by
    unfold makeDirectory
    rw [hcheck, locate_bare hl]
    simp only [bind, Except.bind, hnode]
    rfl
  have hassure : assureDirectory directory t = (.ok (), t) := by
    unfold assureDirectory
    simp only [hmake, h, ↓reduceIte]
  unfold createDirectories
  rw [hassure]
  split_ifs
  · rfl
  · rfl

theorem Keeps.isDirectory (h : t.Keeps u) (hdir : t.isDirectory directory = true) :
    u.isDirectory directory = true := by
  unfold FileTree.isDirectory at hdir ⊢
  rw [beq_iff_eq, find?_eq_some_iff] at hdir ⊢
  obtain ⟨hcheck, l, hl, hnode⟩ := hdir
  exact ⟨hcheck, l, h.locate hl, h.directory l hnode⟩

/-! ## Files of names -/

/-- A file could be made at a path: nothing is there, and the way there is. -/
def Vacant (t : FileTree) (path : String) : Prop :=
  ∃ l, t.locate path.toList = .ok l ∧ t.node? l = none

theorem Vacant.isPresent {path : String} (h : t.Vacant path) : t.isPresent path = false := by
  obtain ⟨l, hl, hnode⟩ := h
  unfold FileTree.isPresent find?
  rw [hl]
  split
  · next heq =>
    cases heq
    rw [hnode]
    rfl
  · rfl

theorem Vacant.write {path other text : String} (h : t.Vacant other)
    (hput : t.write path text = .ok u)
    (hne : ∀ l, t.locate path.toList = .ok l → t.locate other.toList ≠ .ok l) :
    u.Vacant other := by
  obtain ⟨-, l, hl, hdir, rfl⟩ := exists_of_write hput
  obtain ⟨k, hk, hnode⟩ := h
  refine ⟨k, (Keeps.put_file hdir text).locate hk, ?_⟩
  rw [node?_put t (ne_nil_of_node? hdir), if_neg]
  · exact hnode
  · rintro rfl
    exact hne k hl hk

/-- The file of a name has the text of a graph that goes by it, or could be made. -/
def Lodges (t : FileTree) (directory name : String) : Option Graph → Prop
  | some g => g.name = name ∧ t.Saved directory g
  | none => t.Vacant (Graph.filePath directory name)

/-- A graph that is dumped is in the file of its name from then on. -/
theorem Lodges.dump {g : Graph} {path name : String} {last : Option Graph}
    (h : t.Lodges directory name last) (hdir : t.isDirectory directory = true)
    (hg : '/' ∉ g.name.toList) (hname : '/' ∉ name.toList)
    (hdump : t.run (g.dump directory) = (.ok path, u)) :
    u.isDirectory directory = true
      ∧ u.Lodges directory name (if g.name = name then some g else last) := by
  obtain ⟨t₁, hcreate, hput⟩ := exists_of_dump hdump
  -- the directory is there, so writing the file is all that happens
  obtain rfl : t = t₁ :=
    congrArg Prod.snd ((createDirectories_of_isDirectory hdir _).symm.trans hcreate)
  obtain ⟨hself, hothers⟩ := saved_of_dump hdump
  obtain ⟨-, l, -, hl, rfl⟩ := exists_of_write hput
  refine ⟨(Keeps.put_file hl _).isDirectory hdir, ?_⟩
  split_ifs with heq
  · exact ⟨heq, hself⟩
  cases last with
  | none => exact Vacant.write h hput (locate_ne_of_name_ne hg hname heq)
  | some other =>
    obtain ⟨rfl, hsaved⟩ := h
    exact ⟨rfl, hothers other hg hname heq hsaved⟩

/-- After the graphs of a list were dumped, one after the other, the file of a name has the last
of them that goes by it. -/
theorem Lodges.forM {s : GraphSet} {name : String} (hs : ∀ name, '/' ∉ (s.get name).name.toList)
    (hname : '/' ∉ name.toList) : ∀ (names : List GraphName) {t u : FileTree}
    {last : Option Graph}, t.isDirectory directory = true → t.Lodges directory name last →
      t.run (names.forM fun name => do let _ ← (s.get name).dump directory) = (.ok (), u) →
        u.Lodges directory name ((Graph.lastNamed name (names.map s.get)).or last)
  | [], t, u, last, _, h, hrun => by
    cases hrun
    exact h
  | first :: names, t, u, last, hdir, h, hrun => by
    rw [List.forM_eq_forM, List.forM_cons] at hrun
    obtain ⟨⟨⟩, t₁, hfirst, hrun⟩ := exists_of_run_bind hrun
    obtain ⟨path, t₂, hdump, hpure⟩ := exists_of_run_bind hfirst
    cases hpure
    obtain ⟨hdir, h⟩ := h.dump hdir (hs first) hname hdump
    have hrest := Lodges.forM hs hname names hdir h hrun
    rw [List.map_cons, Graph.lastNamed_cons, Option.or_assoc]
    convert hrest using 2
    split_ifs <;> rfl

/-! ## What is restored -/

theorem exists_run_restore_of_lodges {name : GraphName} {last : Option Graph}
    (h : t.Lodges directory name.name last)
    (hlast : ∀ g ∈ last, g.Sound ∧ g.capture.Fits) :
    ∃ g, t.run (Graph.restore directory name) = (.ok g, t)
      ∧ g.capture = (last.getD (.empty name.name)).capture := by
  cases last with
  | none =>
    have habsent : t.run (liftM (Files.isPresent (Graph.filePath directory name.name)
        : StateM FileTree Bool)) = (.ok false, t) := by
      show (Except.ok (t.isPresent _), t) = _
      rw [Vacant.isPresent h]
    exact ⟨_, (run_bind_of_ok habsent).trans rfl, rfl⟩
  | some g =>
    obtain ⟨hname, hsaved⟩ := h
    obtain ⟨hsound, hfits⟩ := hlast g rfl
    obtain ⟨g', hload, hcapture⟩ := hsound.exists_toGraph_capture hfits
    refine ⟨g', run_restore_of_saved name hname ?_ hsaved, hcapture⟩
    rw [← hname]
    exact (bind_of_ok (Document.read_write hfits rfl) _).trans hload

end FileTree

namespace GraphSet

/-- Under each name are the records of the last graph that goes by it, and none if there is no such
graph. -/
def Restores (s s' : GraphSet) : Prop :=
  ∀ name : GraphName, (s'.get name).capture
    = ((Graph.lastNamed name.name (GraphName.all.map s.get)).getD (.empty name.name)).capture

variable {s s' : GraphSet}

/-- A set in which each graph goes by the name it is kept under gets all of them back. -/
theorem Restores.capture_eq (h : s.Restores s') (hs : s.Named) (name : GraphName) :
    (s'.get name).capture = (s.get name).capture := by
  have hlast : Graph.lastNamed name.name (GraphName.all.map s.get) = some (s.get name) := by
    unfold Graph.lastNamed
    cases name <;> simp [GraphName.all, hs _, GraphName.name]
  rw [h name, hlast]
  rfl

/-- Nothing comes back under a name that no graph goes by. -/
theorem Restores.eq_nil (h : s.Restores s') {name : GraphName}
    (hne : ∀ other, (s.get other).name ≠ name.name) :
    Readable.allVertices (s'.get name) = [] ∧ Readable.allEdges (s'.get name) = [] := by
  have hlast : Graph.lastNamed name.name (GraphName.all.map s.get) = none := by
    unfold Graph.lastNamed
    rw [List.find?_eq_none]
    intro g hg
    rw [List.mem_reverse] at hg
    obtain ⟨other, -, rfl⟩ := List.mem_map.1 hg
    rw [beq_iff_eq]
    exact hne other
  have hcapture := h name
  rw [hlast] at hcapture
  exact ⟨congrArg Document.vertices hcapture, congrArg Document.edges hcapture⟩

end GraphSet

/-- Graphs of stores, whatever names they go by, that are saved into a directory with nothing in it
under the names of the set, and then restored. -/
theorem exists_restores_of_save {s : GraphSet} {t u : FileTree} {directory : String}
    (hstored : ∀ name, (s.get name).Storable) (hfits : ∀ name, (s.get name).capture.Fits)
    (hplain : ∀ name, '/' ∉ (s.get name).name.toList) (hdir : t.isDirectory directory = true)
    (hvacant : ∀ name : GraphName, t.Vacant (Graph.filePath directory name.name))
    (hsave : t.run (s.save directory) = (.ok (), u)) :
    ∃ s', u.run (GraphSet.restore directory) = (.ok s', u) ∧ s.Restores s' := by
  have hgraph : ∀ name : GraphName, ∃ g, u.run (Graph.restore directory name) = (.ok g, u)
      ∧ g.capture = ((Graph.lastNamed name.name (GraphName.all.map s.get)).getD
        (.empty name.name)).capture := by
    intro name
    have hlodges : u.Lodges directory name.name
        ((Graph.lastNamed name.name (GraphName.all.map s.get)).or none) :=
      FileTree.Lodges.forM hplain name.slash_not_mem GraphName.all hdir (hvacant name) hsave
    rw [Option.or_none] at hlodges
    refine FileTree.exists_run_restore_of_lodges hlodges fun g hg => ?_
    obtain ⟨other, -, rfl⟩ :=
      List.mem_map.1 (List.mem_reverse.1 (List.mem_of_find?_eq_some hg))
    exact ⟨(hstored other).sound, hfits other⟩
  choose graph hrun hcapture using hgraph
  refine ⟨⟨graph .main, graph .buffer, graph .mock, graph .history⟩, ?_, fun name => ?_⟩
  · unfold GraphSet.restore
    refine (FileTree.run_bind_of_ok (hrun .main)).trans ?_
    refine (FileTree.run_bind_of_ok (hrun .buffer)).trans ?_
    refine (FileTree.run_bind_of_ok (hrun .mock)).trans ?_
    exact (FileTree.run_bind_of_ok (hrun .history)).trans rfl
  · rw [← hcapture name]
    cases name <;> rfl

/-- A set with a main graph that goes by another name. -/
def strayingSet : GraphSet :=
  GraphSet.empty.set .main ((Graph.empty "side").insertVertex ⟨0, "Process", ∅⟩)

example : (((FileTree.empty ["home"]).run
    (strayingSet.save "state" >>= fun _ => GraphSet.restore "state")).1.toOption.map
      fun s => (Readable.allVertices s.main).length) = some 0 := by
  decide +kernel

end Lineage
