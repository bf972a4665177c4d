import Lineage.FileTree
import Mathlib.Tactic.SplitIfs

/-!
# Writing to and reading from file trees

A file that was written is found again under its path (`find?_of_write`), and later operations leave
it alone, as long as they write to other places: directories are only ever added
(`grows_createDirectories`), so a path that leads somewhere keeps leading there (`Keeps.walk`).
Whether an operation succeeds depends on where there are directories and files, and not on what is
in the files (`Alike`).
-/

namespace Lineage.FileTree

open Std

variable {t u : FileTree} {l : Location} {n : FileNode}

theorem node?_put (t : FileTree) (hl : l ≠ []) (n : FileNode) (k : Location) :
    (t.put l n).node? k = if k = l then some n else t.node? k := by
  unfold node? put
  by_cases hk : k = []
  · have hkl : k ≠ l := fun h => hl (h.symm.trans hk)
    simp [hk, Ne.symm (hk ▸ hkl)]
  · simp only [hk, ↓reduceIte, ExtTreeMap.getElem?_insert, Std.compare_eq_iff_eq,
      @eq_comm _ l k]

theorem ne_nil_of_node? (h : t.node? l ≠ some .directory) : l ≠ [] := by
  rintro rfl
  exact h rfl

/-! ## Trees that keep their directories -/

/-- What is a directory stays one. -/
structure Keeps (t u : FileTree) : Prop where
  working : t.working = u.working
  directory : ∀ l, t.node? l = some .directory → u.node? l = some .directory

/-- Nothing is changed, and things may be added. -/
structure Grows (t u : FileTree) : Prop where
  working : t.working = u.working
  node : ∀ l n, t.node? l = some n → u.node? l = some n

theorem Grows.keeps (h : t.Grows u) : t.Keeps u := ⟨h.working, fun l => h.node l .directory⟩

theorem Grows.refl (t : FileTree) : t.Grows t := ⟨rfl, fun _ _ h => h⟩

theorem Grows.trans {v : FileTree} (h : t.Grows u) (h' : u.Grows v) : t.Grows v :=
  ⟨h.working.trans h'.working, fun l n hn => h'.node l n (h.node l n hn)⟩

theorem Grows.put (h : t.node? l = none) (n : FileNode) : t.Grows (t.put l n) := by
  have hl : l ≠ [] := ne_nil_of_node? fun hdir => nomatch h.symm.trans hdir
  refine ⟨rfl, fun k m hm => ?_⟩
  rw [node?_put t hl, if_neg]
  · exact hm
  · rintro rfl
    rw [h] at hm
    cases hm

theorem Keeps.put_file (h : t.node? l ≠ some .directory) (text : String) :
    t.Keeps (t.put l (.file text)) := by
  refine ⟨rfl, fun k hk => ?_⟩
  rw [node?_put t (ne_nil_of_node? h), if_neg]
  · exact hk
  · rintro rfl
    exact h hk

/-- A walk that comes to an end is taken to the same place. -/
theorem Keeps.walk (h : t.Keeps u) : ∀ (ss : List (List Char)) {l r : Location},
    t.walk l ss = .ok r → u.walk l ss = .ok r
  | [], _, _, hr => hr
  | s :: ss, l, r, hr => by
    unfold FileTree.walk at hr ⊢
    split at hr
    · next hdir =>
      rw [h.directory l hdir]
      split_ifs at hr ⊢
      exact Keeps.walk h ss hr
    · cases hr
    · cases hr

theorem Keeps.locate (h : t.Keeps u) {path : List Char} (hl : t.locate path = .ok l) :
    u.locate path = .ok l := by
  have hstart : u.start path = t.start path := by
    unfold start
    rw [h.working]
  unfold FileTree.locate at hl ⊢
  rw [hstart]
  exact h.walk _ hl

theorem walk_append (t : FileTree) (later : List (List Char)) : ∀ (ss : List (List Char))
    (l : Location), t.walk l (ss ++ later) = t.walk l ss >>= fun l => t.walk l later
  | [], _ => rfl
  | s :: ss, l => by
    rw [List.cons_append, walk, walk]
    split
    · split_ifs
      · rfl
      · exact walk_append t later ss _
    · rfl
    · rfl

/-! ## Files -/

theorem find?_eq_some_iff {path : String} : t.find? path = some n
    ↔ checkPath path = .ok () ∧ ∃ l, t.locate path.toList = .ok l ∧ t.node? l = some n := by
  unfold find?
  rcases hcheck : checkPath path with e | ⟨⟩
  · simp
  · rcases hl : t.locate path.toList with e | l
    · simp
    · simp

theorem Grows.find? (h : t.Grows u) {path : String} (hn : t.find? path = some n) :
    u.find? path = some n := by
  obtain ⟨hcheck, l, hl, hnode⟩ := find?_eq_some_iff.1 hn
  exact find?_eq_some_iff.2 ⟨hcheck, l, h.keeps.locate hl, h.node l n hnode⟩

theorem read_of_find? {path text : String} (h : t.find? path = some (.file text)) :
    t.read path = .ok text := by
  obtain ⟨hcheck, l, hl, hnode⟩ := find?_eq_some_iff.1 h
  unfold read
  simp only [hcheck, hl, hnode, bind, Except.bind]
  rfl

theorem isPresent_of_find? {path : String} (h : t.find? path = some n) :
    t.isPresent path = true := by
  rw [isPresent, h]
  rfl

/-- Writing puts a file where the path leads, and no directory is in the way. -/
theorem exists_of_write {path text : String} (h : t.write path text = .ok u) :
    checkPath path = .ok () ∧ ∃ l, t.locate path.toList = .ok l ∧ t.node? l ≠ some .directory
      ∧ u = t.put l (.file text) := by
  unfold write at h
  rcases hcheck : checkPath path with e | ⟨⟩
  · simp [hcheck, bind, Except.bind] at h
  refine ⟨rfl, ?_⟩
  simp only [hcheck, bind, Except.bind] at h
  split_ifs at h
  · split at h <;> cases h
  rcases hl : t.locate path.toList with e | l
  · simp [hl] at h
  simp only [hl] at h
  split at h
  · cases h
  · next hdir => exact ⟨l, rfl, hdir, (Except.ok.inj h).symm⟩

theorem find?_of_write {path text : String} (h : t.write path text = .ok u) :
    u.find? path = some (.file text) := by
  obtain ⟨hcheck, l, hl, hdir, rfl⟩ := exists_of_write h
  refine find?_eq_some_iff.2 ⟨hcheck, l, (Keeps.put_file hdir text).locate hl, ?_⟩
  rw [node?_put t (ne_nil_of_node? hdir), if_pos rfl]

/-- What another path leads to is not touched. -/
theorem find?_of_write_of_ne {path other text : String} (h : t.write path text = .ok u)
    (hne : ∀ l, t.locate path.toList = .ok l → t.locate other.toList ≠ .ok l)
    (hn : t.find? other = some n) : u.find? other = some n := by
  obtain ⟨-, l, hl, hdir, rfl⟩ := exists_of_write h
  obtain ⟨hcheck, k, hk, hnode⟩ := find?_eq_some_iff.1 hn
  refine find?_eq_some_iff.2 ⟨hcheck, k, (Keeps.put_file hdir text).locate hk, ?_⟩
  rw [node?_put t (ne_nil_of_node? hdir), if_neg]
  · exact hnode
  · rintro rfl
    exact hne k hl hk

/-! ## Directories -/

theorem grows_makeDirectory {path : String} (h : t.makeDirectory path = .ok u) : t.Grows u := by
  unfold makeDirectory at h
  rcases hcheck : checkPath path with e | ⟨⟩
  · simp [hcheck, bind, Except.bind] at h
  rcases hl : t.locate (bare path) with e | l
  · simp [hcheck, hl, bind, Except.bind] at h
  simp only [hcheck, hl, bind, Except.bind] at h
  split at h
  · cases h
  · next hnone =>
    cases h
    exact .put hnone _

theorem grows_assureDirectory (path : String) (t : FileTree) :
    t.Grows (assureDirectory path t).2 := by
  unfold assureDirectory
  split
  · next h => exact grows_makeDirectory h
  · exact .refl t

theorem grows_createDirectories : ∀ (steps : Nat) (path : String) (t : FileTree),
    t.Grows (createDirectories steps path t).2
  | 0, _, t => .refl t
  | steps + 1, path, t => by
    have hfirst := grows_assureDirectory path t
    unfold createDirectories
    split_ifs
    · exact .refl t
    split
    · next t₁ heq =>
      rw [heq] at hfirst
      split
      · exact hfirst
      · next above _ =>
        have habove := grows_createDirectories steps above t₁
        split
        · next t₂ heq₂ =>
          rw [heq₂] at habove
          exact hfirst.trans (habove.trans (grows_assureDirectory path t₂))
        · exact hfirst.trans habove
    · exact hfirst

/-! ## Trees with the same paths -/

/-- Two trees have directories at the same places, and files at the same places. -/
structure SamePaths (t u : FileTree) : Prop where
  working : t.working = u.working
  directory : ∀ l, t.node? l = some .directory ↔ u.node? l = some .directory
  absent : ∀ l, t.node? l = none ↔ u.node? l = none

theorem SamePaths.refl (t : FileTree) : t.SamePaths t :=
  ⟨rfl, fun _ => Iff.rfl, fun _ => Iff.rfl⟩

namespace SamePaths

/-- What is at a place, in both trees. -/
theorem node?_cases (h : t.SamePaths u) (l : Location) : (t.node? l = none ∧ u.node? l = none)
    ∨ (t.node? l = some .directory ∧ u.node? l = some .directory)
    ∨ ∃ a b, t.node? l = some (.file a) ∧ u.node? l = some (.file b) := by
  rcases ht : t.node? l with _ | _ | a
  · exact .inl ⟨rfl, (h.absent l).1 ht⟩
  · exact .inr (.inl ⟨rfl, (h.directory l).1 ht⟩)
  · rcases hu : u.node? l with _ | _ | b
    · exact nomatch ht.symm.trans ((h.absent l).2 hu)
    · exact nomatch ht.symm.trans ((h.directory l).2 hu)
    · exact .inr (.inr ⟨a, b, rfl, rfl⟩)

theorem put (h : t.SamePaths u) (hl : l ≠ []) {m n : FileNode}
    (hmn : m = .directory ↔ n = .directory) : (t.put l m).SamePaths (u.put l n) where
  working := h.working
  directory k := by
    rw [node?_put t hl, node?_put u hl]
    split_ifs
    · simpa using hmn
    · exact h.directory k
  absent k := by
    rw [node?_put t hl, node?_put u hl]
    split_ifs
    · simp
    · exact h.absent k

theorem walk (h : t.SamePaths u) : ∀ (ss : List (List Char)) (l : Location),
    t.walk l ss = u.walk l ss
  | [], _ => rfl
  | s :: ss, l => by
    unfold FileTree.walk
    rcases h.node?_cases l with ⟨ht, hu⟩ | ⟨ht, hu⟩ | ⟨a, b, ht, hu⟩
    · rw [ht, hu]
    · rw [ht, hu]
      simp only [walk h ss]
    · rw [ht, hu]

theorem start (h : t.SamePaths u) (path : List Char) : t.start path = u.start path := by
  unfold FileTree.start
  rw [h.working]

theorem locate (h : t.SamePaths u) (path : List Char) : t.locate path = u.locate path := by
  unfold FileTree.locate
  rw [h.start, h.walk]

theorem locateAbove (h : t.SamePaths u) (path : List Char) :
    t.locateAbove path = u.locateAbove path := by
  unfold FileTree.locateAbove
  rw [h.start, h.walk]

theorem isDirectory (h : t.SamePaths u) (path : String) :
    t.isDirectory path = u.isDirectory path := by
  unfold FileTree.isDirectory FileTree.find?
  rw [h.locate]
  rcases checkPath path with e | ⟨⟩
  · rfl
  rcases u.locate path.toList with e | l
  · rfl
  rcases h.node?_cases l with ⟨ht, hu⟩ | ⟨ht, hu⟩ | ⟨a, b, ht, hu⟩
  · simp only [ht, hu]
  · simp only [ht, hu]
  · simp only [ht, hu]
    rfl

end SamePaths

/-- Two changes of trees fail with the same error, or give trees with the same paths. -/
inductive EndAlike : Except FileError FileTree → Except FileError FileTree → Prop
  | error (e : FileError) : EndAlike (.error e) (.error e)
  | ok {t u : FileTree} (same : t.SamePaths u) : EndAlike (.ok t) (.ok u)

theorem endAlike_write (h : t.SamePaths u) (path text other : String) :
    EndAlike (t.write path text) (u.write path other) := by
  unfold write
  rw [h.locate, h.locateAbove]
  rcases checkPath path with e | ⟨⟩
  · exact .error e
  simp only [bind, Except.bind]
  split_ifs
  · rcases u.locateAbove (bare path) with e | l
    · exact .error e
    · exact .error _
  rcases u.locate path.toList with e | l
  · exact .error e
  rcases h.node?_cases l with ⟨ht, hu⟩ | ⟨ht, hu⟩ | ⟨a, b, ht, hu⟩
  · simp only [ht, hu]
    exact .ok (h.put (ne_nil_of_node? fun hdir => nomatch ht.symm.trans hdir) (by simp))
  · simp only [ht, hu]
    exact .error _
  · simp only [ht, hu]
    exact .ok (h.put (ne_nil_of_node? fun hdir => nomatch ht.symm.trans hdir) (by simp))

theorem endAlike_makeDirectory (h : t.SamePaths u) (path : String) :
    EndAlike (t.makeDirectory path) (u.makeDirectory path) := by
  unfold makeDirectory
  rw [h.locate]
  rcases checkPath path with e | ⟨⟩
  · exact .error e
  simp only [bind, Except.bind]
  rcases u.locate (bare path) with e | l
  · exact .error e
  rcases h.node?_cases l with ⟨ht, hu⟩ | ⟨ht, hu⟩ | ⟨a, b, ht, hu⟩
  · simp only [ht, hu]
    exact .ok (h.put (ne_nil_of_node? fun hdir => nomatch ht.symm.trans hdir) Iff.rfl)
  · simp only [ht, hu]
    exact .error _
  · simp only [ht, hu]
    exact .error _

/-- The same result, and trees with the same paths. -/
inductive SameEnd {α : Type} : α × FileTree → α × FileTree → Prop
  | mk (a : α) {t u : FileTree} (same : t.SamePaths u) : SameEnd (a, t) (a, u)

/-- Two operations yield the same on trees with the same paths, and leave such trees. -/
def Alike {α : Type} (x y : StateM FileTree α) : Prop :=
  ∀ t u : FileTree, t.SamePaths u → SameEnd (x.run t) (y.run u)

theorem alike_write (path text other : String) :
    Alike (Files.write path text) (Files.write path other) := by
  intro t u h
  have hend := endAlike_write h path text other
  show SameEnd (change (fun t => t.write path text) t) (change (fun t => t.write path other) u)
  unfold change
  simp only
  generalize t.write path text = x, u.write path other = y at hend
  cases hend with
  | error e => exact .mk _ h
  | ok h' => exact .mk _ h'

theorem sameEnd_assureDirectory (h : t.SamePaths u) (path : String) :
    SameEnd (assureDirectory path t) (assureDirectory path u) := by
  have hend := endAlike_makeDirectory h path
  unfold assureDirectory
  rw [h.isDirectory]
  generalize t.makeDirectory path = x, u.makeDirectory path = y at hend
  cases hend with
  | error e => exact .mk _ h
  | ok h' => exact .mk _ h'

theorem sameEnd_createDirectories : ∀ (steps : Nat) (path : String) {t u : FileTree},
    t.SamePaths u → SameEnd (createDirectories steps path t) (createDirectories steps path u)
  | 0, _, _, _, h => .mk _ h
  | steps + 1, path, t, u, h => by
    have hfirst := sameEnd_assureDirectory h path
    rw [createDirectories, createDirectories]
    split_ifs
    · exact .mk _ h
    generalize assureDirectory path t = x, assureDirectory path u = y at hfirst
    obtain @⟨r, t₁, u₁, h₁⟩ := hfirst
    rcases r with e | ⟨⟩
    · cases e
      case notFound =>
        simp only
        split
        · exact .mk _ h₁
        · next above _ =>
          have habove := sameEnd_createDirectories steps above h₁
          generalize createDirectories steps above t₁ = x, createDirectories steps above u₁ = y
            at habove
          obtain @⟨r, t₂, u₂, h₂⟩ := habove
          rcases r with e | ⟨⟩
          · exact .mk _ h₂
          · exact sameEnd_assureDirectory h₂ path
      all_goals exact .mk _ h₁
    · exact .mk _ h₁

theorem alike_createDirectories (path : String) :
    Alike (Files.createDirectories path) (Files.createDirectories path) :=
  fun _ _ h => sameEnd_createDirectories _ path h

end Lineage.FileTree
