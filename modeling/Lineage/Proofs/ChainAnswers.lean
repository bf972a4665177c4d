import Lineage.Proofs.ChainGraph
import Lineage.Proofs.Lines

/-!
# What a synthetic chain answers

Populating an empty graph with a chain applies every fragment, each in the buffer graph of its turn
(`whole_populate`), and as many sub-processes come of it as there are links. In the graph that
results the columns at one place of their tables are in a line with the steps between them, and so
are the tables with the processes, so the source of either is answered with the line that leads to
it (`Whole.exists_column_answers`, `Whole.exists_table_answer`). To populate it again finds every
fragment present (`populate_whole`).
-/

namespace Lineage

open Std Consolidation Query

/-! ## Results of one kind -/

namespace FragmentResult

theorem of_isPresent : ∀ {r : FragmentResult}, r.isPresent = true →
    r.isApplied = false ∧ r.failure? = none
  | ⟨_, .ok .alreadyPresent⟩, _ => ⟨rfl, rfl⟩

end FragmentResult

namespace SyntheticChain

variable {c : SyntheticChain} {depths : SearchDepths} {name : String} {g : Graph}

/-! ## Populating -/

/-- The tasks that populating comes down to. -/
def tasks (c : SyntheticChain) (depths : SearchDepths) : List Task :=
  Buffer.tasks depths (.empty "mock-buffer") c.events

/-- The graphs that populating starts from. -/
def start (target : Graph) : Workspace := ⟨.empty "mock-buffer", target⟩

section Populating

variable (c : SyntheticChain) (depths : SearchDepths) (target : Graph)

theorem populate_fst [StepIds] : (c.populate depths target).1
    = (start target).account depths 0 c.events := by
  refine (congrArg Prod.fst (Workspace.ingestFrom_eq depths c.events 0 {} (start target))).trans ?_
  simp [Summary.add]

theorem populate_snd [StepIds] : (c.populate depths target).2
    = ((start target).attemptAll (c.tasks depths)).main :=
  congrArg (fun p => p.2.main)
    (Workspace.ingestFrom_eq depths c.events 0 {} (start target))

end Populating

/-- Whatever graph is populated, no event is refused, and the fragments are as many as the links. -/
theorem summary_populate [StepIds] (c : SyntheticChain) (depths : SearchDepths) (target : Graph) :
    let s := (c.populate depths target).1
    let results := (start target).results (c.tasks depths)
    s = { Summary.ofResults results with
          events := 1 + c.tables * (2 + 2 * c.columns) + (c.tables - 1)
          fragments := (c.tables - 1) * c.columns }
      ∧ results.length = (c.tables - 1) * c.columns := by
  intro s results
  have hletIn := letIn_events "mock-buffer" c
  have hcount := Buffer.length_letIn c.events (.empty "mock-buffer") 0
  rw [hletIn, Nat.add_eq_left, List.length_eq_zero_iff] at hcount
  have hlength : results.length = (c.tables - 1) * c.columns := by
    have hmap :=
      congrArg List.length (Workspace.map_fragment_results (c.tasks depths) (start target))
    rwa [List.length_map, tasks,
      Buffer.length_fragments_tasks c.events (Graph.identified_empty "mock-buffer"), hletIn,
      length_mappings_events] at hmap
  refine ⟨?_, hlength⟩
  rw [show s = _ from populate_fst c depths target, ← hlength,
    ← length_events c.tables c.columns, Workspace.account]
  simp only [start, hletIn, hcount]
  rfl

/-- What each link maintains holds after all of them. -/
theorem upholds_populate [StepIds] {Inv : Graph → Prop} {kind : FragmentResult → Prop}
    {target : Graph} (hmaintains : ∀ k j f, k + 1 < c.tables → j < c.columns → Links f k j →
      f.Maintains depths (buffer "mock-buffer" ⟨k + 2, c.columns⟩) Inv kind) (hinv : Inv target) :
    (start target).Upholds (c.tasks depths) Inv kind :=
  upholds_events hmaintains hinv

/-- Populating an empty graph fails nowhere and leaves out no step. -/
theorem whole_populate [StepIds] (hids : StepsApart) (c : SyntheticChain)
    (hdepth : 1 ≤ depths.table) (name : String) :
    Whole c name (c.populate depths (.empty name)).2
      ∧ (c.populate depths (.empty name)).1.isClean = true := by
  have hupholds : (start (.empty name)).Upholds (c.tasks depths) (Woven name)
      fun r => r.failure? = none :=
    upholds_populate (fun k j f _ hj hlinks =>
      hlinks.maintains (c := ⟨k + 2, c.columns⟩) hdepth (Nat.lt_succ_self _) hj _ name)
      (woven_empty hids name)
  have hclean : (c.populate depths (.empty name)).1.isClean = true := by
    rw [(summary_populate c depths (.empty name)).1]
    have hfailed : (Summary.ofResults
        ((start (.empty name)).results (c.tasks depths))).failed = [] :=
      List.filterMap_eq_nil_iff.2 hupholds.1
    simp only [Summary.isClean, hfailed]
    rfl
  obtain ⟨-, -, hsettled, -⟩ := Workspace.ingestFrom_of_isClean c.events 0 {}
    (w := start (.empty name)) (Graph.identified_empty _) (Graph.wellFormed_empty name) hclean
  refine ⟨⟨populate_snd c depths _ ▸ hupholds.2, fun k j hk hj => ?_⟩, hclean⟩
  have hevent : processEvent c.columns (k + 1) ∈ c.events :=
    mem_events_iff.2 (.inr ⟨k + 1, hk, .inr (.inr ⟨k.succ_ne_zero, rfl⟩)⟩)
  refine ((hsettled _ hevent).2 none ⟨columnGuid k j, columnGuid (k + 1) j,
    ⟨processGuid (k + 1), none⟩⟩ ?_).2
  simp only [processEvent, Event.fragments, List.map_map, List.mem_map, List.mem_range]
  exact ⟨j, hj, rfl⟩

/-- As many fragments are applied as there are links. -/
theorem applied_populate [StepIds] (hids : StepsApart) (c : SyntheticChain)
    (hdepth : 1 ≤ depths.table) (name : String) :
    (c.populate depths (.empty name)).1.applied = (c.tables - 1) * c.columns := by
  have hleast := (whole_populate hids c hdepth name).1.le_subProcessCount
  have hcount := Workspace.subProcessCount_attemptAll (c.tasks depths) (w := start (.empty name))
    (Graph.identified_empty _) (Graph.wellFormed_empty name)
  obtain ⟨hs, hlength⟩ := summary_populate c depths (.empty name)
  have hsum := FragmentResult.length_eq ((start (.empty name)).results (c.tasks depths))
  rw [populate_snd] at hleast
  have hnone : (start (.empty name)).main.subProcessCount = 0 := by
    simp [start, Graph.subProcessCount]
  rw [hs]
  show List.countP _ _ = _
  omega

/-! ## Populating again -/

theorem Links.maintains_present [StepIds] {f : Fragment} {k j : ℕ} (hf : Links f k j)
    (hg : g.WellFormed) (hp : g.Present (columnGuid k j) (columnGuid (k + 1) j)
      (processGuid (k + 1))) (hk : k + 1 < c.tables) (hj : j < c.columns) (scratch : String) :
    f.Maintains depths (c.buffer scratch) (· = g) fun r => r.isPresent = true := by
  rintro main rfl
  have hholds : (⟨c.buffer scratch, main⟩ : Workspace).Holds f := by
    refine ⟨fun side => ?_, by rwa [hf.columnIn_eq, hf.columnOut_eq, hf.guid_eq]⟩
    obtain ⟨inst, hinst, -, -, hguid, -⟩ := exists_hop scratch (add_shift_lt hk side) hj
    exact ⟨inst, hinst, hf.column_eq side ▸ hguid⟩
  have hpresent := Workspace.consolidate_of_holds depths (records_buffer scratch c).1 hg hholds
  refine ⟨?_, by rw [Workspace.attempt_consolidate hpresent]⟩
  show FragmentResult.isPresent ⟨f, (consolidate depths (c.buffer scratch) main f).map Prod.fst⟩ = _
  rw [hpresent]
  rfl

/-- To populate a graph again, with any search depths, finds every fragment present. -/
theorem populate_whole [StepIds] (h : Whole c name g) (depths : SearchDepths) :
    c.populate depths g = ({ events := 1 + c.tables * (2 + 2 * c.columns) + (c.tables - 1)
                             fragments := (c.tables - 1) * c.columns
                             alreadyPresent := (c.tables - 1) * c.columns }, g) := by
  have hupholds : (start g).Upholds (c.tasks depths) (· = g) fun r => r.isPresent = true :=
    upholds_populate (fun k j f hk hj hlinks =>
      hlinks.maintains_present (c := ⟨k + 2, c.columns⟩) h.wellFormed (h.present k j hk hj)
        (Nat.lt_succ_self _) hj _) rfl
  obtain ⟨hs, hlength⟩ := summary_populate c depths g
  refine Prod.ext (hs.trans ?_) ((populate_snd c depths g).trans hupholds.2)
  have happlied : ((start g).results (c.tasks depths)).countP FragmentResult.isApplied = 0 :=
    List.countP_eq_zero.2 fun r hr => by
      simp [(FragmentResult.of_isPresent (hupholds.1 r hr)).1]
  have hpresent := List.countP_eq_length.2 hupholds.1
  have hfailed : ((start g).results (c.tasks depths)).filterMap FragmentResult.failure? = [] :=
    List.filterMap_eq_nil_iff.2 fun r hr => (FragmentResult.of_isPresent (hupholds.1 r hr)).2
  rw [Summary.ofResults, happlied, hpresent, hfailed, hlength]

/-! ## Lines -/

/-- What columns at one place and the steps between them are told by. -/
def columnMember (step : ℕ → String) (j : ℕ) : ℕ → String × String × Option String :=
  alternate (fun k => (columnGuid k j, NodeLabel.column.name, some (columnGuid k j)))
    fun k => (step k, NodeLabel.subProcess.name, some (processGuid (k + 1)))

/-- What tables and the processes between them are told by. -/
def tableMember : ℕ → String × String × Option String :=
  alternate (fun k => (tableGuid k, NodeLabel.table.name, some (tableGuid k)))
    fun k => (processGuid (k + 1), NodeLabel.process.name, some (processGuid (k + 1)))

/-- What stands for a guid is shown under it. -/
theorem Woven.identity_eq [StepIds] (h : Woven name g) {v : Vertex} {n : String} {l : NodeLabel}
    (hv : v ∈ allVertices g) (hn : v.nodeId? = some n) (hmock : IsMock n)
    (hl : (role n).label? = some l) : v.identity = (n, l.name, some n) := by
  obtain ⟨hlabel, hguid⟩ := h.eq_of_role hv hn hmock hl
  have hid := Option.some.inj ((h.named.nodeId?_eq hv).symm.trans hn)
  rw [Vertex.identity, hid, hlabel, hguid]

namespace Whole

variable [StepIds] {k j : ℕ}

/-- The columns at one place of their tables, and the steps from each to the next. -/
theorem exists_columns (h : Whole c name g) (htables : 2 ≤ c.tables) (hj : j < c.columns) :
    ∃ column step : ℕ → Vertex,
      (∀ k < c.tables, column k ∈ allVertices g ∧ (column k).nodeId? = some (columnGuid k j))
      ∧ ∀ k, k + 1 < c.tables → ∃ f q, Links f k j
        ∧ g.StepOf f (step k) (column k) (column (k + 1)) q := by
  obtain ⟨v₀, -⟩ := h.exists_column htables (Nat.lt_of_lt_of_le Nat.zero_lt_two htables) hj
  have : Nonempty Vertex := ⟨v₀⟩
  have hcolumns : ∀ k, k < c.tables → ∃ v ∈ allVertices g, v.nodeId? = some (columnGuid k j) :=
    fun k hk => h.exists_column htables hk hj
  choose! column hmem hid using hcolumns
  have hsteps : ∀ k, k + 1 < c.tables → ∃ s f q, Links f k j
      ∧ g.StepOf f s (column k) (column (k + 1)) q := by
    intro k hk
    obtain ⟨f, s, u, w, q, hlinks, hstep⟩ := h.exists_stepOf hk hj
    obtain rfl := h.eq_of_nodeId (hmem k (by omega)) hstep.source_mem (hid k (by omega))
      (hlinks.columnIn_eq ▸ hstep.source_id)
    obtain rfl := h.eq_of_nodeId (hmem (k + 1) hk) hstep.target_mem (hid (k + 1) hk)
      (hlinks.columnOut_eq ▸ hstep.target_id)
    exact ⟨s, f, q, hlinks, hstep⟩
  choose! step hstep using hsteps
  exact ⟨column, step, fun k hk => ⟨hmem k hk, hid k hk⟩, hstep⟩

/-- The source of a column is the column at its place in the first table. -/
theorem exists_column_answers (h : Whole c name g) (htables : 2 ≤ c.tables)
    (hj : j < c.columns) : ∃ step : ℕ → String, ∀ i < c.tables, ∀ w graph,
      ∃ r, answer g w graph .ultimateSource .column (columnGuid i j) = .ok r
        ∧ r.IsLine .columnAndProcess (columnMember step j) (2 * i) := by
  obtain ⟨column, step, hcolumn, hstep⟩ := h.exists_columns htables hj
  have hc := h.wellFormed.toCoherent
  refine ⟨fun k => (step k).responseId, fun i hi w graph => ?_⟩
  have hline : g.Line .columnAndProcess (alternate column step) (2 * i) := by
    refine Graph.line_alternate (fun k hk => (hcolumn k (by omega)).1) (fun k hk => ?_)
      (fun x hx => ?_) (fun k hk x => ?_) fun k hk x => ?_
    · obtain ⟨f, q, -, hstep⟩ := hstep k (by omega)
      exact hstep.mem
    · obtain ⟨hv, hn⟩ := hcolumn 0 (by omega)
      obtain ⟨f, s, u, q, k, hk, -⟩ := h.exists_step_of_joined hv hn hx
      cases hk
    · obtain ⟨f, q, -, hstep⟩ := hstep k (by omega)
      exact ⟨hstep.isStep.source_eq hc, fun heq => heq ▸ hstep.isStep.joined_in hc⟩
    · obtain ⟨f, q, hlinks, hstep⟩ := hstep k (by omega)
      refine ⟨fun hx => ?_, fun heq => heq ▸ hstep.isStep.joined_out hc⟩
      obtain ⟨hv, hn⟩ := hcolumn (k + 1) (by omega)
      obtain ⟨f', s', u', q', k', hk', rfl, hlinks', hstep'⟩ := h.exists_step_of_joined hv hn hx
      obtain rfl := Nat.succ.inj hk'
      rw [h.eq_of_stepOf hlinks hlinks' hstep hstep']
  refine hline.exists_answer_alternate .column h.wellFormed h.named.distinct
    (fun k hk => ?_) (fun k hk => ?_) ?_ w graph
  · obtain ⟨hv, hn⟩ := hcolumn k (by omega)
    exact h.identity_eq hv hn (isMock_columnGuid k j) (by simp [Role.label?])
  · obtain ⟨f, q, hlinks, hstep⟩ := hstep k (by omega)
    exact Prod.ext rfl (Prod.ext hstep.label_eq
      ((Complete.guid?_stepOf hstep).trans (congrArg some hlinks.guid_eq)))
  · obtain ⟨hv, hn⟩ := hcolumn i hi
    exact h.named.findNode?_of_nodeId? hc hv hn

/-- The tables, and the processes from each to the next. -/
theorem exists_tables_processes (h : Whole c name g) (htables : 2 ≤ c.tables)
    (hcolumns : 1 ≤ c.columns) : ∃ table process : ℕ → Vertex,
      (∀ k < c.tables, table k ∈ allVertices g ∧ (table k).nodeId? = some (tableGuid k))
      ∧ ∀ k, k + 1 < c.tables → process k ∈ allVertices g
        ∧ (process k).nodeId? = some (processGuid (k + 1))
        ∧ g.Joined .tableAndProcess (table k).id (process k).id
        ∧ g.Joined .tableAndProcess (process k).id (table (k + 1)).id := by
  obtain ⟨v₀, -⟩ := h.exists_table htables (Nat.lt_of_lt_of_le Nat.zero_lt_two htables) hcolumns
  have : Nonempty Vertex := ⟨v₀⟩
  have htable : ∀ k, k < c.tables → ∃ v ∈ allVertices g, v.nodeId? = some (tableGuid k) :=
    fun k hk => h.exists_table htables hk hcolumns
  choose! table hmem hid using htable
  have hprocesses : ∀ k, k + 1 < c.tables → ∃ q ∈ allVertices g,
      q.nodeId? = some (processGuid (k + 1)) ∧ g.Joined .tableAndProcess (table k).id q.id
        ∧ g.Joined .tableAndProcess q.id (table (k + 1)).id := by
    intro k hk
    obtain ⟨f, s, u, w, q, hlinks, hstep⟩ := h.exists_stepOf hk hcolumns
    obtain ⟨t, ht, t', ht', htn, htn', hin, hout⟩ := h.exists_tables hlinks hstep
    obtain rfl := h.eq_of_nodeId (hmem k (by omega)) ht (hid k (by omega)) htn
    obtain rfl := h.eq_of_nodeId (hmem (k + 1) hk) ht' (hid (k + 1) hk) htn'
    exact ⟨q, hstep.owner_mem, hlinks.guid_eq ▸ hstep.owner_id, hin, hout⟩
  choose! process hprocess using hprocesses
  exact ⟨table, process, fun k hk => ⟨hmem k hk, hid k hk⟩, hprocess⟩

/-- The source of a table is the first table. -/
theorem exists_table_answer (h : Whole c name g) (htables : 2 ≤ c.tables)
    (hcolumns : 1 ≤ c.columns) {i : ℕ} (hi : i < c.tables) (w : Whitelist) (graph : GraphName) :
    ∃ r, answer g w graph .ultimateSource .table (tableGuid i) = .ok r
      ∧ r.IsLine .tableAndProcess tableMember (2 * i) := by
  obtain ⟨table, process, htable, hprocess⟩ := h.exists_tables_processes htables hcolumns
  have hc := h.wellFormed.toCoherent
  have hline : g.Line .tableAndProcess (alternate table process) (2 * i) := by
    refine Graph.line_alternate (fun k hk => (htable k (by omega)).1)
      (fun k hk => (hprocess k (by omega)).1) (fun x hx => ?_) (fun k hk x => ?_) fun k hk x => ?_
    · obtain ⟨hv, hn⟩ := htable 0 (by omega)
      obtain ⟨q, -, -, k, hk, -⟩ := h.process_of_table hv hn hx
      cases hk
    · obtain ⟨hq, hqn, hin, -⟩ := hprocess k (by omega)
      refine ⟨fun hx => ?_, fun heq => heq ▸ hin⟩
      obtain ⟨t, ht, rfl, htn⟩ := h.table_of_process hq hqn hx
      obtain ⟨hv, hn⟩ := htable k (by omega)
      rw [h.eq_of_nodeId ht hv htn hn]
    · obtain ⟨hq, hqn, -, hout⟩ := hprocess k (by omega)
      refine ⟨fun hx => ?_, fun heq => heq ▸ hout⟩
      obtain ⟨hv, hn⟩ := htable (k + 1) (by omega)
      obtain ⟨q, hq', rfl, k', hk', hqn'⟩ := h.process_of_table hv hn hx
      obtain rfl := Nat.succ.inj hk'
      rw [h.eq_of_nodeId hq' hq hqn' hqn]
  refine hline.exists_answer_alternate .table h.wellFormed h.named.distinct
    (fun k hk => ?_) (fun k hk => ?_) ?_ w graph
  · obtain ⟨hv, hn⟩ := htable k (by omega)
    exact h.identity_eq hv hn (isMock_tableGuid k) (by simp [Role.label?])
  · obtain ⟨hq, hqn, -⟩ := hprocess k (by omega)
    exact h.identity_eq hq hqn (isMock_processGuid (k + 1)) (by simp [Role.label?])
  · obtain ⟨hv, hn⟩ := htable i hi
    exact h.named.findNode?_of_nodeId? hc hv hn

end Whole

/-! ## The whole account -/

/-- What populating an empty graph with a chain comes to, where it yields a summary and a graph. -/
structure Populated [StepIds] (c : SyntheticChain) (s : Summary) (g : Graph) : Prop where
  isClean : s.isClean = true
  events : s.events = 1 + c.tables * (2 + 2 * c.columns) + (c.tables - 1)
  fragments : s.fragments = (c.tables - 1) * c.columns
  applied : s.applied = (c.tables - 1) * c.columns
  /-- The source of a column: the columns at its place and the steps between them, by turns. -/
  columns : ∃ step : ℕ → ℕ → String, ∀ i < c.tables, ∀ j < c.columns, ∀ w graph,
    ∃ r, answer g w graph .ultimateSource .column (columnGuid i j) = .ok r
      ∧ r.vertices.length = 2 * i + 1 ∧ r.edges.length = 2 * i
      ∧ r.IsLine .columnAndProcess (columnMember (step j) j) (2 * i)
  /-- The source of a table: the tables up to it and the processes between them, by turns. -/
  tables : ∀ i < c.tables, ∀ w graph,
    ∃ r, answer g w graph .ultimateSource .table (tableGuid i) = .ok r
      ∧ r.vertices.length = 2 * i + 1 ∧ r.edges.length = 2 * i
      ∧ r.IsLine .tableAndProcess tableMember (2 * i)
  /-- To populate the graph again, with any search depths, applies nothing. -/
  again : ∀ depths,
    c.populate depths g = ({ s with applied := 0, alreadyPresent := s.fragments }, g)

/-- Chains of any shape, with any search depths that let a column find its table, and any node ids
of sub-processes that are no guids of chains. -/
theorem populated_populate [StepIds] (hids : StepsApart) (c : SyntheticChain)
    (htables : 2 ≤ c.tables) (hcolumns : 1 ≤ c.columns) (depths : SearchDepths)
    (hdepth : 1 ≤ depths.table) (name : String) :
    c.Populated (c.populate depths (.empty name)).1 (c.populate depths (.empty name)).2 := by
  obtain ⟨hwhole, hclean⟩ := whole_populate hids c hdepth name
  have hs := (summary_populate c depths (.empty name)).1
  have hfragments : (c.populate depths (.empty name)).1.fragments
      = (c.tables - 1) * c.columns := by rw [hs]
  have hevents : (c.populate depths (.empty name)).1.events
      = 1 + c.tables * (2 + 2 * c.columns) + (c.tables - 1) := by rw [hs]
  obtain ⟨hfailed, hrejected⟩ : (c.populate depths (.empty name)).1.failed = []
      ∧ (c.populate depths (.empty name)).1.rejected = [] := by
    simpa [Summary.isClean] using hclean
  refine ⟨hclean, hevents, hfragments, applied_populate hids c hdepth name, ?_,
    fun i hi w graph => ?_, fun depths' => ?_⟩
  · have hanswers := fun j hj => hwhole.exists_column_answers (j := j) htables hj
    choose! step hstep using hanswers
    refine ⟨step, fun i hi j hj w graph => ?_⟩
    obtain ⟨r, hr, hline⟩ := hstep j hj i hi w graph
    exact ⟨r, hr, hline.length_vertices, hline.length_edges, hline⟩
  · obtain ⟨r, hr, hline⟩ := hwhole.exists_table_answer htables hcolumns hi w graph
    exact ⟨r, hr, hline.length_vertices, hline.length_edges, hline⟩
  · rw [populate_whole hwhole, hfragments, hevents, hfailed, hrejected]

theorem populated_populate_three_two :
    let c : SyntheticChain := ⟨3, 2⟩
    StepsApart ∧ 2 ≤ c.tables ∧ 1 ≤ c.columns ∧ 1 ≤ ({} : SearchDepths).table
      ∧ (c.populate {} (.empty "mock")).1.events = 21
      ∧ (c.populate {} (.empty "mock")).1.applied = 4
      ∧ c.Populated (c.populate {} (.empty "mock")).1 (c.populate {} (.empty "mock")).2 := by
  intro c
  have h := populated_populate stepsApart_numbered c (by decide) (by decide) {} (by decide) "mock"
  exact ⟨stepsApart_numbered, by decide, by decide, by decide, h.events, h.applied, h⟩

end SyntheticChain

end Lineage
