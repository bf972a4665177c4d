import Lineage.Proofs.FileTrees
import Lineage.Proofs.TomlText
import Lineage.Settings
import Mathlib.Data.List.TakeWhile

/-!
# Settings that are saved and loaded

The text that settings are written as is a document of three sections, in which the whitelist is an
array in one of three layouts (`denotes_writeKeys`); it is read back as the settings, all but the
project root (`read?_writeText`). A file it is saved to gives its directory for that: whatever path
a file can be written to has a parent (`exists_parent_of_write`).
-/

namespace Lineage

open Std

/-! ## Arrays of strings -/

namespace Settings

open Toml

theorem skipTrivia_quote (key : String) (rest : List Char) :
    skipTrivia false (quote key ++ rest) = quote key ++ rest := by
  obtain ⟨c, cs, hquote, hc⟩ := exists_quote_eq_cons key
  rw [hquote]
  rcases hc with rfl | rfl <;> rfl

theorem skipTrivia_writeItem (key : String) (rest : List Char) :
    skipTrivia false (writeItem key ++ rest) = quote key ++ ',' :: '\n' :: rest := by
  have hindent : skipTrivia false (writeItem key ++ rest)
      = skipTrivia false (quote key ++ [',', '\n'] ++ rest) := rfl
  rw [hindent, List.append_assoc, skipTrivia_quote]
  rfl

theorem scanItems_cons {fuel depth : Nat} {cs next rest : List Char} {c : Char} {x : Toml}
    {xs : List Toml} {tail : List Char}
    (hx : scanValue fuel depth cs = some (x, ',' :: next))
    (hnext : skipTrivia false next = c :: tail) (hc : c ≠ ']')
    (hxs : scanItems fuel depth (c :: tail) = some (xs, rest)) :
    scanItems (fuel + 1) depth cs = some (x :: xs, rest) := by
  have hcomma : skipTrivia false (',' :: next) = ',' :: next := rfl
  rw [scanItems, hx]
  simp only [Option.bind_eq_bind, Option.bind_some, hcomma, hnext]
  split
  · next heq => exact absurd (List.cons.inj heq).1 hc
  · rw [hxs]
    rfl

theorem scanValue_quote_comma (key : String) (fuel depth : Nat) (rest : List Char) :
    scanValue (fuel + 1) depth (quote key ++ ',' :: rest) = some (.str key, ',' :: rest) :=
  scanValue_quote key fuel depth (noQuote_cons (by decide) (by decide) rest)

/-- Behind an item stands the next one, or the bracket that closes the array. -/
theorem scanItems_flatMap_writeItem (depth : Nat) (rest : List Char) :
    ∀ (key : String) (keys : List String) {fuel : Nat}, keys.length + 1 < fuel →
      scanItems fuel depth (quote key ++ ',' :: '\n' :: (keys.flatMap writeItem ++ ']' :: rest))
        = some ((key :: keys).map .str, rest)
  | key, [], fuel + 2, _ => by
    rw [scanItems, scanValue_quote_comma]
    rfl
  | key, next :: keys, fuel + 2, hfuel => by
    have ih := scanItems_flatMap_writeItem depth rest next keys (Nat.lt_of_succ_lt_succ hfuel)
    have hnext : skipTrivia false ('\n' :: ((next :: keys).flatMap writeItem ++ ']' :: rest))
        = quote next ++ ',' :: '\n' :: (keys.flatMap writeItem ++ ']' :: rest) := by
      rw [List.flatMap_cons, List.append_assoc]
      exact skipTrivia_writeItem next _
    obtain ⟨c, cs, hquote, hc⟩ := exists_quote_eq_cons next
    rw [hquote, List.cons_append] at hnext ih
    exact scanItems_cons (scanValue_quote_comma key fuel depth _) hnext
      (ne_of_quoteMark hc (by decide) (by decide)) ih

theorem length_le_flatMap_writeItem : ∀ keys : List String,
    keys.length ≤ (keys.flatMap writeItem).length
  | [] => Nat.le_refl 0
  | key :: keys => by
    have ih := length_le_flatMap_writeItem keys
    simp only [List.flatMap_cons, List.length_append, List.length_cons, writeItem]
    omega

theorem scanValue_arr {fuel depth : Nat} {cs rest tail : List Char} {c : Char} {xs : List Toml}
    (hstart : skipTrivia false cs = c :: tail) (hc : c ≠ ']')
    (hxs : scanItems fuel depth (c :: tail) = some (xs, rest)) :
    scanValue (fuel + 1) (depth + 1) ('[' :: cs) = some (.arr xs, rest) := by
  rw [scanValue, hstart]
  split
  · next heq => exact absurd (List.cons.inj heq).1 hc
  · rw [hxs]
    rfl

theorem scanValue_single (key : String) (fuel depth : Nat) (rest : List Char) :
    scanValue (fuel + 3) (depth + 1) (writeKeys [key] ++ rest)
      = some (.arr [.str key], rest) := by
  have hstart := skipTrivia_quote key (']' :: rest)
  have hvalue := scanValue_quote key fuel depth
    (noQuote_cons (c := ']') (by decide) (by decide) rest)
  have hwrite : writeKeys [key] ++ rest = '[' :: (quote key ++ ']' :: rest) := by
    simp [writeKeys]
  obtain ⟨c, cs, hquote, hc⟩ := exists_quote_eq_cons key
  rw [hquote, List.cons_append] at hstart hvalue hwrite
  rw [hwrite]
  refine scanValue_arr hstart (ne_of_quoteMark hc (by decide) (by decide)) ?_
  rw [scanItems, hvalue]
  rfl

theorem scanValue_several (key next : String) (keys : List String) {fuel : Nat} (depth : Nat)
    (rest : List Char) (hfuel : keys.length + 2 < fuel) :
    scanValue (fuel + 1) (depth + 1) (writeKeys (key :: next :: keys) ++ rest)
      = some (.arr ((key :: next :: keys).map .str), rest) := by
  have hscan := scanItems_flatMap_writeItem depth rest key (next :: keys) hfuel
  have hstart : skipTrivia false ('\n' :: ((key :: next :: keys).flatMap writeItem ++ ']' :: rest))
      = quote key ++ ',' :: '\n' :: ((next :: keys).flatMap writeItem ++ ']' :: rest) := by
    rw [List.flatMap_cons, List.append_assoc]
    exact skipTrivia_writeItem key _
  have hwrite : writeKeys (key :: next :: keys) ++ rest
      = '[' :: '\n' :: ((key :: next :: keys).flatMap writeItem ++ ']' :: rest) := by
    simp [writeKeys]
  obtain ⟨c, cs, hquote, hc⟩ := exists_quote_eq_cons key
  rw [hquote, List.cons_append] at hstart hscan
  rw [hwrite]
  exact scanValue_arr hstart (ne_of_quoteMark hc (by decide) (by decide)) hscan

/-- The keys are read back whichever of the three layouts they have. -/
theorem denotes_writeKeys : ∀ keys : List String,
    Denotes (writeKeys keys) (.arr (keys.map .str))
  | [] => {
      skipSpace_append := fun rest => rfl
      scanValue_append := fun {fuel depth} hfuel hdepth rest => by
        obtain ⟨depth, rfl⟩ := Nat.exists_eq_succ_of_ne_zero (Nat.ne_of_gt hdepth)
        obtain ⟨fuel, rfl⟩ := Nat.exists_eq_succ_of_ne_zero (Nat.ne_zero_of_lt hfuel)
        rfl }
  | [key] => {
      skipSpace_append := fun rest => rfl
      scanValue_append := fun {fuel depth} hfuel hdepth rest => by
        obtain ⟨depth, rfl⟩ := Nat.exists_eq_succ_of_ne_zero (Nat.ne_of_gt hdepth)
        obtain ⟨c, cs, hquote, -⟩ := exists_quote_eq_cons key
        have hlength : 3 ≤ (writeKeys [key]).length := by simp [writeKeys, hquote]
        obtain ⟨fuel, rfl⟩ := Nat.exists_eq_add_of_le' (hlength.trans (Nat.le_of_lt hfuel))
        exact scanValue_single key fuel depth _ }
  | key :: next :: keys => {
      skipSpace_append := fun rest => rfl
      scanValue_append := fun {fuel depth} hfuel hdepth rest => by
        obtain ⟨depth, rfl⟩ := Nat.exists_eq_succ_of_ne_zero (Nat.ne_of_gt hdepth)
        obtain ⟨fuel, rfl⟩ := Nat.exists_eq_succ_of_ne_zero (Nat.ne_zero_of_lt hfuel)
        have hlength := length_le_flatMap_writeItem (key :: next :: keys)
        have hwrite : (writeKeys (key :: next :: keys)).length
            = ((key :: next :: keys).flatMap writeItem).length + 3 := by
          simp [writeKeys, Nat.add_assoc]
        rw [hwrite] at hfuel
        simp only [List.length_cons] at hlength
        exact scanValue_several key next keys depth _ (by omega) }

/-! ## The document -/

/-- The lines that settings are written as. -/
def lines (s : Settings) : List Line :=
  [.header ["whitelist"], .assignment ["attributes"] (.arr (s.whitelist.keys.map .str)),
    .header ["consolidation"], .assignment ["table_search_depth"] (.int s.depths.table),
    .assignment ["schema_search_depth"] (.int s.depths.schema),
    .header ["storage"], .assignment ["state_dir"] (.str s.stateDirectory)]

/-- Search depths that a TOML integer can hold. -/
structure Fits (s : Settings) : Prop where
  table : s.depths.table ≤ 2 ^ 63 - 1
  schema : s.depths.schema ≤ 2 ^ 63 - 1

instance (s : Settings) : Decidable s.Fits :=
  decidable_of_iff _ ⟨fun h => ⟨h.1, h.2⟩, fun h => And.intro h.table h.schema⟩

variable {s : Settings}

theorem Fits.lt (h : s.Fits) : s.depths.table < int64Limit ∧ s.depths.schema < int64Limit := by
  have hlimit : int64Limit = 2 ^ 63 := rfl
  obtain ⟨htable, hschema⟩ := h
  omega

theorem lineTexts_writeText (h : s.Fits) : LineTexts s.lines s.writeText := by
  have hwrite : s.writeText
      = headerText "whitelist" ++ '\n' ::
        (assignmentText "attributes" (writeKeys s.whitelist.keys) ++ '\n' :: '\n' ::
        (headerText "consolidation" ++ '\n' ::
        (assignmentText "table_search_depth" (Nat.toDigits 10 s.depths.table) ++ '\n' ::
        (assignmentText "schema_search_depth" (Nat.toDigits 10 s.depths.schema) ++ '\n' :: '\n' ::
        (headerText "storage" ++ '\n' ::
        (assignmentText "state_dir" (quote s.stateDirectory) ++ ['\n'])))))) := by
    have hwhitelist : "[whitelist]\nattributes = ".toList
        = headerText "whitelist" ++ '\n' :: assignmentText "attributes" [] := rfl
    have htable : "\n\n[consolidation]\ntable_search_depth = ".toList
        = '\n' :: '\n' :: (headerText "consolidation" ++ '\n' ::
          assignmentText "table_search_depth" []) := rfl
    have hschema : "\nschema_search_depth = ".toList
        = '\n' :: assignmentText "schema_search_depth" [] := rfl
    have hstorage : "\n\n[storage]\nstate_dir = ".toList
        = '\n' :: '\n' :: (headerText "storage" ++ '\n' :: assignmentText "state_dir" []) := rfl
    unfold writeText
    rw [hwhitelist, htable, hschema, hstorage]
    unfold assignmentText
    simp only [List.append_assoc, List.cons_append, List.nil_append]
  rw [hwrite]
  refine .line (lineText_header (by decide)) ?_
  refine .line (lineText_assignment (by decide) (denotes_writeKeys _)) (.blank ?_)
  refine .line (lineText_header (by decide)) ?_
  refine .line (lineText_assignment (by decide) (denotes_toDigits h.lt.1)) ?_
  refine .line (lineText_assignment (by decide) (denotes_toDigits h.lt.2)) (.blank ?_)
  refine .line (lineText_header (by decide)) ?_
  exact .line (lineText_assignment (by decide) (denotes_quote _)) .nil

/-- What the lines amount to. -/
def entries (s : Settings) : Entries :=
  [("whitelist", .table .header [("attributes", .arr (s.whitelist.keys.map .str))]),
    ("consolidation", .table .header [("table_search_depth", .int s.depths.table),
      ("schema_search_depth", .int s.depths.schema)]),
    ("storage", .table .header [("state_dir", .str s.stateDirectory)])]

theorem ofKeys_keys (w : Whitelist) : Whitelist.ofKeys w.keys = w := by
  ext key
  rw [Whitelist.ofKeys, ExtTreeSet.mem_ofList, List.contains_iff_mem]
  exact ExtTreeSet.mem_toList

theorem mapM_asString? : ∀ keys : List String, (keys.map Toml.str).mapM asString? = some keys
  | [] => rfl
  | key :: keys => by
    rw [List.map_cons, List.mapM_cons, mapM_asString? keys]
    rfl

theorem asWhitelist?_keys (w : Whitelist) : asWhitelist? (.arr (w.keys.map .str)) = some w := by
  rw [asWhitelist?, mapM_asString?, Option.map_some, ofKeys_keys]

/-- All but the project root is read back. -/
theorem read?_writeText (h : s.Fits) :
    read? (String.ofList s.writeText) = some { s with projectRoot := "" } := by
  have hlines : lines? (String.ofList s.writeText) = some s.lines :=
    (lineTexts_writeText h).lines?_eq rfl
  have hread : Toml.read? (String.ofList s.writeText) = some s.entries := by
    rw [Toml.read?, hlines]
    rfl
  have hwhitelist : entry? whitelistOf? "whitelist" Whitelist.standard s.entries
      = some s.whitelist := asWhitelist?_keys s.whitelist
  rw [read?, hread]
  simp only [Option.bind_eq_bind, Option.bind_some, hwhitelist]
  rfl

theorem write_of_fits (h : s.Fits) : s.write = .ok (String.ofList s.writeText) :=
  if_pos (by simp [h.lt])

theorem write_of_not_fits (h : ¬ s.Fits) : s.write = .error .unwritable := by
  have hlimit : int64Limit = 2 ^ 63 := rfl
  refine if_neg fun hlt => h ⟨?_, ?_⟩ <;>
    simp only [Bool.and_eq_true, decide_eq_true_eq] at hlt <;> omega

end Settings

/-! ## Files -/

namespace FileTree

variable {t u : FileTree}

theorem enter_of_isIdle {segment : List Char} (h : Path.isIdle segment) (l : Location) :
    enter l segment = l := if_pos h

theorem eq_of_walk_idle : ∀ {ss : List (List Char)} {l r : Location},
    (∀ segment ∈ ss, Path.isIdle segment) → t.walk l ss = .ok r → r = l
  | [], l, r, _, h => (Except.ok.inj h).symm
  | segment :: ss, l, r, hidle, h => by
    rw [List.forall_mem_cons] at hidle
    rw [walk] at h
    split at h
    · split_ifs at h
      rw [enter_of_isIdle hidle.1] at h
      exact eq_of_walk_idle hidle.2 h
    · cases h
    · cases h

end FileTree

namespace Path

theorem trimEnd_eq_nil_iff {ss : List (List Char)} :
    trimEnd ss = [] ↔ ∀ segment ∈ ss, isIdle segment := by
  rw [trimEnd, List.reverse_eq_nil_iff, List.dropWhile_eq_nil_iff]
  simp

/-- What stands before the first slash. -/
theorem exists_segments_eq_cons (cs : List Char) :
    ∃ first more, segments cs = first :: more
      ∧ (cs = first ∨ ∃ tail, cs = first ++ '/' :: tail) := by
  obtain ⟨first, more, hcons⟩ := List.exists_cons_of_ne_nil (List.splitOn_ne_nil '/' cs)
  have hjoin : List.intercalate ['/'] (cs.splitOn '/') = cs := List.intercalate_splitOn '/'
  rw [hcons] at hjoin
  refine ⟨first, more, hcons, ?_⟩
  rcases more with _ | ⟨next, more⟩
  · exact .inl (by simpa using hjoin.symm)
  · rw [List.intercalate_cons_cons, List.append_assoc] at hjoin
    exact .inr ⟨_, hjoin.symm⟩

theorem segments_slash (cs : List Char) : segments ('/' :: cs) = [] :: segments cs :=
  List.splitOn_append_cons_self [] cs

/-- A path without a parent is empty, or it goes round in the root. -/
theorem parent?_eq_none {path : String} (h : parent? path = none) :
    path.toList = [] ∨ isAbsolute path ∧ ∀ segment ∈ segments path.toList, isIdle segment := by
  unfold parent? at h
  unfold isAbsolute
  generalize path.toList = cs at h ⊢
  rcases hsplit : splitStart cs with ⟨start, rest⟩
  rw [hsplit] at h
  dsimp only at h
  split at h
  · next hidle =>
    rw [List.reverse_eq_nil_iff, trimEnd_eq_nil_iff] at hidle
    split_ifs at h with hstart
    unfold splitStart at hsplit
    split at hsplit
    · next rest' =>
      cases hsplit
      refine .inr ⟨rfl, ?_⟩
      rw [segments_slash, List.forall_mem_cons]
      exact ⟨rfl, hidle⟩
    · exact absurd (congrArg Prod.fst hsplit).symm hstart
    · exact absurd (congrArg Prod.fst hsplit).symm hstart
    · next hslash hdot hdotslash =>
      cases hsplit
      obtain ⟨first, more, hcons, hfirst⟩ := exists_segments_eq_cons cs
      have hfirstIdle : isIdle first := hidle first (hcons ▸ List.mem_cons_self)
      simp only [isIdle, Bool.or_eq_true, beq_iff_eq] at hfirstIdle
      rcases hfirstIdle with rfl | rfl
      · exact .inl (hfirst.resolve_right fun ⟨tail, htail⟩ => hslash tail htail)
      · rcases hfirst with hsingle | ⟨tail, htail⟩
        · exact (hdot hsingle).elim
        · exact (hdotslash tail htail).elim
  · cases h

end Path

/-- A path that a file can be written to has a parent. -/
theorem FileTree.exists_parent_of_write {t u : FileTree} {path text : String}
    (h : t.write path text = .ok u) : ∃ parent, Path.parent? path = some parent := by
  obtain ⟨hcheck, l, hl, hdir, -⟩ := exists_of_write h
  rcases hparent : Path.parent? path with _ | parent
  · rcases Path.parent?_eq_none hparent with hempty | ⟨habsolute, hidle⟩
    · rw [String.toList_eq_nil_iff] at hempty
      subst hempty
      cases hcheck
    · have hstart : t.start path.toList = [] := if_pos habsolute
      rw [locate, hstart] at hl
      exact absurd (eq_of_walk_idle hidle hl ▸ rfl) hdir
  · exact ⟨parent, rfl⟩

namespace Settings

abbrev saveIn (s : Settings) (path : String) : StateM FileTree (Except SettingsError Unit) :=
  s.save path

abbrev loadIn (path : String) : StateM FileTree (Except SettingsError Settings) := load path

/-- How saving settings to a path of a tree ends, as the file with their text can be written or
not; and what is loaded from a file that was written. -/
inductive SaveEnds (s : Settings) (text path : String) (t : FileTree) : Prop where
  | written {u : FileTree} {parent : String} (hwrite : t.write path text = .ok u)
    (hsave : s.saveIn path t = (.ok (), u)) (hparent : Path.parent? path = some parent)
    (hload : loadIn path u = (.ok { s with projectRoot := parent }, u))
  | failed {e : FileError} (hwrite : t.write path text = .error e)
    (hsave : s.saveIn path t = (.error (.file e), t))

theorem bind_of_run {α β : Type} {x : StateM FileTree α} {t u : FileTree} {a : α}
    (h : x t = (a, u)) (f : α → StateM FileTree β) : (x >>= f) t = f a u := by
  have hbind : (x >>= f) t = f (x t).1 (x t).2 := rfl
  rw [hbind, h]

theorem saveIn_of_write {s : Settings} {text : String} (h : s.write = .ok text) (path : String)
    (t : FileTree) : s.saveIn path t = match t.write path text with
      | .ok u => (.ok (), u)
      | .error e => (.error (.file e), t) := by
  unfold saveIn save
  rw [h]
  rcases hwrite : t.write path text with e | u
  · have hfile : (Files.write path text : StateM FileTree _) t = (.error e, t) := by
      change (match t.write path text with | .ok t => _ | .error e => _) = _
      rw [hwrite]
    exact bind_of_run hfile _
  · have hfile : (Files.write path text : StateM FileTree _) t = (.ok (), u) := by
      change (match t.write path text with | .ok t => _ | .error e => _) = _
      rw [hwrite]
    exact bind_of_run hfile _

theorem loadIn_of_read {u : FileTree} {path text : String} {s : Settings}
    (hread : u.read path = .ok text) (hs : read? text = some s) :
    loadIn path u = (.ok { s with projectRoot := (Path.parent? path).getD s.projectRoot }, u) := by
  have hfile : (Files.read path : StateM FileTree _) u = (.ok text, u) := congrArg (·, u) hread
  unfold loadIn load
  rw [bind_of_run hfile]
  simp only [hs]
  rfl

theorem saveEnds_of_fits {s : Settings} (h : s.Fits) (path : String) (t : FileTree) :
    s.SaveEnds (String.ofList s.writeText) path t := by
  have hsave := saveIn_of_write (write_of_fits h) path t
  rcases hwrite : t.write path (String.ofList s.writeText) with e | u
  · exact .failed hwrite (by rw [hsave, hwrite])
  · obtain ⟨parent, hparent⟩ := FileTree.exists_parent_of_write hwrite
    have hread := FileTree.read_of_find? (FileTree.find?_of_write hwrite)
    refine .written hwrite (by rw [hsave, hwrite]) hparent ?_
    rw [loadIn_of_read hread (read?_writeText h), hparent, Option.getD_some]

/-- Settings with search depths that a TOML integer can hold survive being written and saved; no
other settings are saved, and nothing is written for them. -/
theorem survives_saving (s : Settings) :
    (s.Fits → ∃ text, s.write = .ok text ∧ read? text = some { s with projectRoot := "" }
        ∧ ∀ path t, s.SaveEnds text path t)
      ∧ (¬ s.Fits → ∀ path (t : FileTree), s.saveIn path t = (.error .unwritable, t)) := by
  refine ⟨fun h => ⟨_, write_of_fits h, read?_writeText h, saveEnds_of_fits h⟩, fun h path t => ?_⟩
  unfold saveIn save
  rw [write_of_not_fits h]
  rfl

/-- Settings of which every string needs some care: quotes of both kinds, three in a row, line
breaks, a backslash and a control character. -/
def awkwardSettings : Settings where
  whitelist := Whitelist.ofKeys ["a\"b", "it\x27s\n\"\"\"here\"\"\" \\ there", "bell\x07"]
  depths := ⟨2 ^ 63 - 1, 0⟩
  stateDirectory := "donn\u00e9es\t\x27\x27\x27x\""
  projectRoot := "/elsewhere"

def treeWithConf : FileTree := (FileTree.empty ["home"]).put ["home", "conf"] .directory

theorem survives_saving_awkwardSettings :
    awkwardSettings.Fits
      ∧ (∃ u, awkwardSettings.saveIn "conf/lineafold.toml" treeWithConf = (.ok (), u)
        ∧ loadIn "conf/lineafold.toml" u
          = (.ok { awkwardSettings with projectRoot := "conf" }, u))
      ∧ ¬ Fits { awkwardSettings with depths := ⟨2, 2 ^ 63⟩ }
      ∧ saveIn { awkwardSettings with depths := ⟨2, 2 ^ 63⟩ } "conf/lineafold.toml" treeWithConf
        = (.error .unwritable, treeWithConf) := by
  have hfits : awkwardSettings.Fits := ⟨by decide, by decide⟩
  have hdeep : ¬ Fits { awkwardSettings with depths := ⟨2, 2 ^ 63⟩ } := fun h =>
    absurd h.schema (by decide)
  have hwritable (text : String) : ∃ u, treeWithConf.write "conf/lineafold.toml" text = .ok u :=
    ⟨_, rfl⟩
  have hparent : Path.parent? "conf/lineafold.toml" = some "conf" := by decide
  refine ⟨hfits, ?_, hdeep, (survives_saving _).2 hdeep _ _⟩
  obtain ⟨text, -, -, hends⟩ := (survives_saving awkwardSettings).1 hfits
  cases hends "conf/lineafold.toml" treeWithConf with
  | @written u parent hwrite hsave hparent' hload =>
    rw [hparent] at hparent'
    cases hparent'
    exact ⟨u, hsave, hload⟩
  | failed hwrite =>
    obtain ⟨u, hu⟩ := hwritable text
    rw [hu] at hwrite
    cases hwrite

end Settings

end Lineage
