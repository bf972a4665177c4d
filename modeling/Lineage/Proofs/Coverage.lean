import Lineage.Proofs.Origins
import Lineage.Proofs.Tasks

/-!
# Tables cover columns

Where a sub-process takes data from one column to another, the tables around these columns stand on
the two sides of its process (`Graph.Covered`). A fragment that is applied brings this about for its
own sub-process (`Graph.Covered.of_spans`), and nothing takes it back. So if every column is in one
table, data that flows from column to column over any number of sub-processes flows between their
tables too (`tables_cover_columns`).
-/

namespace Lineage

open Std Consolidation
open Relation (ReflTransGen TransGen)

namespace Graph

variable {U : String → Prop} {g g' : Graph}

/-- Two columns are in tables that stand on the two sides of a process. -/
def Carried (g : Graph) (c d p : VertexId) : Prop :=
  ∃ t u, g.TableLinked .input t p c ∧ g.TableLinked .output u p d

def Covered (g : Graph) : Prop :=
  ∀ s ∈ allVertices g, s.label = NodeLabel.subProcess.name → ∀ c d p,
    g.Joined .columnAndProcess c s.id → g.Joined .columnAndProcess s.id d →
      g.Joined .subprocessToProcess s.id p → g.Carried c d p

/-- No vertex is in two tables. -/
def SingleTable (g : Graph) : Prop :=
  ∀ d ∈ allEdges g, ∀ e ∈ allEdges g, d.label = EdgeLabel.includedIn.name →
    e.label = EdgeLabel.includedIn.name → d.source = e.source → d = e

instance {g : Graph} : Decidable g.SingleTable :=
  inferInstanceAs (Decidable (∀ d ∈ allEdges g, ∀ e ∈ allEdges g, _))

theorem covered_empty (name : String) : (empty name).Covered := fun s hs => by simp at hs

theorem WellFormed.exists_of_joined (h : g.WellFormed) {label : EdgeLabel} {s t : VertexId}
    (hj : g.Joined label s t) : ∃ v ∈ allVertices g, v.id = t := by
  obtain ⟨e, he, -, -, rfl⟩ := hj
  exact h.exists_target he

theorem Carried.mono (h : g.Grows g') {c d p : VertexId} : g.Carried c d p → g'.Carried c d p
  | ⟨t, u, ht, hu⟩ => ⟨t, u, h.tableLinked ht, h.tableLinked hu⟩

theorem SingleTable.eq (h : g.SingleTable) {c t u : VertexId} (ht : g.Joined .includedIn c t)
    (hu : g.Joined .includedIn c u) : t = u := by
  obtain ⟨d, hd, hds, hdl, rfl⟩ := ht
  obtain ⟨e, he, hes, hel, rfl⟩ := hu
  rw [h d hd e he hdl hel (hds.trans hes.symm)]

/-! ## A fragment that is applied -/

/-- The ends of a sub-process stay what they are. -/
theorem WellStepped.joined_of_grows (h : g.WellStepped) (h' : g'.WellStepped) (hg : g.Coherent)
    (hg' : g'.Coherent) (hgrows : g.Grows g') {s : Vertex} (hs : s ∈ allVertices g)
    (hlabel : s.label = NodeLabel.subProcess.name) :
    (∀ c, g'.Joined .columnAndProcess c s.id → g.Joined .columnAndProcess c s.id)
      ∧ (∀ d, g'.Joined .columnAndProcess s.id d → g.Joined .columnAndProcess s.id d)
      ∧ ∀ p, g'.Joined .subprocessToProcess s.id p → g.Joined .subprocessToProcess s.id p := by
  obtain ⟨u, -, v, -, q, -, hstep, -⟩ := h.steps s hs hlabel
  obtain ⟨u', -, v', -, q', -, hstep', -⟩ := h'.steps s (hgrows.mem_vertices hs) hlabel
  have hin := hstep.joined_in hg
  have hout := hstep.joined_out hg
  have hup := hstep.joined_up hg
  refine ⟨fun c hc => ?_, fun d hd => ?_, fun p hp => ?_⟩
  · rw [hstep'.source_eq hg' hc, ← hstep'.source_eq hg' (hgrows.joined hin)]
    exact hin
  · rw [hstep'.target_eq hg' hd, ← hstep'.target_eq hg' (hgrows.joined hout)]
    exact hout
  · rw [hstep'.owner_eq hg' hp, ← hstep'.owner_eq hg' (hgrows.joined hup)]
    exact hup

end Graph

open Lineage.Graph

variable {U : String → Prop} {depths : SearchDepths} {buffer main main' g g' : Graph} {f : Fragment}
  {x : TableRole → Vertex}

theorem FragmentItem.eq_of_step {f' : Fragment} :
    FragmentItem depths buffer f x (.step f') → f' = f
  | .core .step => rfl
  | .core (.asset _ hi) => hi.isBeside.elim
  | .core (.table _ _ hi) => hi.isBeside.elim
  | .link _ _ hi => hi.isBeside.elim

theorem FragmentItem.label_ne {l : NodeLabel} {n : String} {ps : Properties} :
    FragmentItem depths buffer f x (.node l n ps) → l ≠ .subProcess
  | .core (.asset _ hi) => hi.isBeside.2
  | .core (.table _ _ hi) => hi.isBeside.2
  | .link _ _ hi => hi.isBeside.2

/-- A sub-process that comes with a fragment runs between the columns of this fragment. -/
theorem Writes.subProcess_cases [StepIds] (hw : Writes (FragmentItem depths buffer f x) g g')
    (hg : g.WellFormed) {s : Vertex} (hs : s ∈ allVertices g')
    (hlabel : s.label = NodeLabel.subProcess.name) : s ∈ allVertices g
      ∨ s.guid? = some f.process.guid ∧ ∃ u v, vertexWith? g' Key.nodeId f.columnIn = some u
        ∧ vertexWith? g' Key.nodeId f.columnOut = some v
        ∧ g'.Joined .columnAndProcess u.id s.id ∧ g'.Joined .columnAndProcess s.id v.id := by
  induction hw with
  | refl => exact .inl hs
  | @tail g₁ g₂ hw hstep ih =>
    have hg₁ := Writes.wellFormed hw hg
    have hgrows := hstep.2.grows
    have hfound : ∀ {n w}, vertexWith? g₁ Key.nodeId n = some w →
        vertexWith? g₂ Key.nodeId n = some w :=
      hgrows.vertexWith? hg₁.toCoherent hstep.1.toCoherent
    have hcases : s ∈ allVertices g₁ ∨ s.guid? = some f.process.guid
        ∧ ∃ u v, vertexWith? g₁ Key.nodeId f.columnIn = some u
          ∧ vertexWith? g₁ Key.nodeId f.columnOut = some v
          ∧ g₂.Joined .columnAndProcess u.id s.id ∧ g₂.Joined .columnAndProcess s.id v.id := by
      cases hstep.2 with
      | node hitem hl _ _ hvs _ =>
        exact .inl (mem_of_append_of_label_ne hvs hl hitem.label_ne hs hlabel)
      | edge _ _ _ _ _ _ _ _ hvs _ => exact .inl (hvs ▸ hs)
      | step hadded =>
        rcases hadded.mem_of_subProcess hs hlabel with hs | rfl
        · exact .inl hs
        · obtain rfl := hadded.item.eq_of_step
          exact .inr ⟨hadded.guid_eq, _, _, hadded.source_eq, hadded.target_eq, hadded.joined_in,
            hadded.joined_out⟩
    rcases hcases with hs | ⟨hguid, u, v, hu, hv, hjoined⟩
    · exact (ih hs).imp_right fun ⟨hguid, u, v, hu, hv, hin, hout⟩ =>
        ⟨hguid, u, v, hfound hu, hfound hv, hgrows.joined hin, hgrows.joined hout⟩
    · exact .inr ⟨hguid, u, v, hfound hu, hfound hv, hjoined⟩

/-- Applying a fragment keeps columns covered: the tables of the fragment cover its own, and the
sub-processes from before have the ends they had. -/
theorem Graph.Covered.of_spans [StepIds] (h : main.Covered) (hm : main.WellFormed)
    (hm' : main'.WellFormed) (hsteps : main.WellStepped) (hsteps' : main'.WellStepped)
    (hw : Writes (FragmentItem depths buffer f x) main main') {s u v q : Vertex}
    (hspans : main'.Spans f x s u v q) : main'.Covered := by
  intro s' hs' hlabel' c d p hc hd hp
  have hpasses := hspans.passes
  rcases hw.subProcess_cases hm hs' hlabel' with hold | ⟨hguid, u', v', hu', hv', hin, hout⟩
  · obtain ⟨hback, hback', hback''⟩ := hsteps.joined_of_grows hsteps' hm.toCoherent
      hm'.toCoherent hw.grows hold hlabel'
    exact (h s' hold hlabel' c d p (hback c hc) (hback' d hd) (hback'' p hp)).mono hw.grows
  · obtain rfl := Option.some.inj (hspans.source_eq.symm.trans hu')
    obtain rfl := Option.some.inj (hspans.target_eq.symm.trans hv')
    obtain rfl : s = s' := hsteps'.eq_of_joined hm' hpasses.mem hs' hpasses.label_eq hlabel'
      (hpasses.guid_eq.trans hguid.symm) hpasses.joined_in hpasses.joined_out hin hout
    obtain ⟨a, -, b, -, o, -, hstep, -⟩ := hsteps'.steps s hs' hlabel'
    have hc' := hm'.toCoherent
    rw [hstep.source_eq hc' hc, ← hstep.source_eq hc' hpasses.joined_in,
      hstep.target_eq hc' hd, ← hstep.target_eq hc' hpasses.joined_out,
      hstep.owner_eq hc' hp, ← hstep.owner_eq hc' hpasses.joined_up]
    exact ⟨_, _, hspans.table_in, hspans.table_out⟩

namespace Workspace

variable {w w' : Workspace} {name : String}

/-- A step on regular graphs keeps columns covered, where no sub-process goes by a guid in use. -/
theorem Step.covered [StepIds] (hs : Step depths U w w') (hw : w.Regular U (.empty name))
    (hfresh : w'.main.FreshSteps U) (h : w.main.Covered) : w'.main.Covered := by
  have hw' := hs.regular hw
  cases hs with
  | record _ _ => exact h
  | @consolidate f outcome main hf hc =>
    have hcases := consolidate_cases depths hw.buffer.toWellFormed hw.main f
    rw [hc] at hcases
    cases hcases with
    | alreadyPresent _ _ => exact h
    | applied _ _ hwrites hspans _ _ _ =>
      have hsteps := hw.writes.wellStepped (hwrites.grows.freshSteps hfresh)
      exact h.of_spans hw.main hw'.main hsteps (hw'.writes.wellStepped hfresh) hwrites hspans

theorem covered_attemptAll [StepIds] : ∀ (tasks : List Task) {w : Workspace},
    w.Regular U (.empty name) → (∀ task ∈ tasks, ∀ n ∈ task.guids, U n) →
      (w.attemptAll tasks).main.FreshSteps U →
      w.main.Covered → (w.attemptAll tasks).main.Covered
  | [], _, _, _, _, h => h
  | task :: tasks, w, hw, hU, hfresh, h => by
    have hnext := hw.attempt (hU task List.mem_cons_self)
    have hlater := later_attemptAll tasks hnext.buffer hnext.main
    refine covered_attemptAll tasks hnext (fun t ht => hU t (List.mem_cons_of_mem _ ht)) hfresh ?_
    rcases attempt_cases w (hU task List.mem_cons_self) with heq | ⟨depths, hs⟩
    · exact heq.symm ▸ h
    · exact hs.covered hw (hlater.grows.freshSteps hfresh) h

end Workspace

/-! ## Paths of columns -/

namespace Graph

/-- A vertex that is a sub-process. -/
def StepAt (g : Graph) (x : VertexId) : Prop :=
  ∃ s ∈ allVertices g, s.label = NodeLabel.subProcess.name ∧ s.id = x

/-- One column feeds another through a sub-process. -/
def Feeds (g : Graph) (c d : VertexId) : Prop :=
  ∃ s ∈ allVertices g, s.label = NodeLabel.subProcess.name ∧ g.Joined .columnAndProcess c s.id
    ∧ g.Joined .columnAndProcess s.id d

/-- An edge between columns and sub-processes has a sub-process at one end. -/
theorem Made.stepAt_of_joined [StepIds] (h : g.Made (Item.Within U)) {x y : VertexId}
    (hj : g.Joined .columnAndProcess x y) : g.StepAt x ∨ g.StepAt y := by
  obtain ⟨e, he, rfl, hlabel, rfl⟩ := hj
  cases h.edge e he with
  | item hi _ _ _ _ hruns =>
    rcases hi.shape with hbeside | ⟨p, heq⟩ | ⟨f, heq⟩
    · exact absurd (EdgeLabel.name_injective (hruns.1.symm.trans hlabel)) hbeside.1
    · cases heq
    · cases heq
  | step hs hsl htouches =>
    exact htouches.imp (fun heq => ⟨_, hs, hsl, heq.symm⟩) fun heq => ⟨_, hs, hsl, heq.symm⟩

/-- An edge that does not come with a sub-process is written for an item of its own. -/
theorem Made.exists_edge_of_joined [StepIds] {P : Item → Prop} (h : g.Made P) (hg : g.Coherent)
    (hsteps : g.WellStepped) {label : EdgeLabel} (hcolumn : label ≠ .columnAndProcess)
    (howner : label ≠ .subprocessToProcess) {x y : VertexId} (hj : g.Joined label x y) :
    ∃ m n, P (.edge label m n) ∧ ∃ u ∈ allVertices g, ∃ v ∈ allVertices g, u.id = x ∧ v.id = y
      ∧ u.nodeId? = some m ∧ v.nodeId? = some n := by
  obtain ⟨e, he, rfl, hlabel, rfl⟩ := hj
  cases h.edge e he with
  | item hi hu hm hv hn hruns =>
    obtain rfl := EdgeLabel.name_injective (hruns.1.symm.trans hlabel)
    exact ⟨_, _, hi, _, hu, _, hv, hruns.2.1.symm, hruns.2.2.symm, hm, hn⟩
  | step hs hsl htouches =>
    have hother : ∀ l : EdgeLabel, l = .columnAndProcess ∨ l = .subprocessToProcess →
        e.label ≠ l.name := by
      rintro l hl heq
      obtain rfl := EdgeLabel.name_injective (hlabel.symm.trans heq)
      exact hl.elim hcolumn howner
    obtain ⟨a, -, b, -, c, -, hstep, -⟩ := hsteps.steps _ hs hsl
    rcases htouches with hsource | htarget
    · obtain ⟨d, d', hd, hd', hout⟩ := hstep.outward
      have hmem := hg.mem_incident_outward.2 ⟨he, hsource⟩
      rw [hout, List.mem_cons, List.mem_singleton] at hmem
      rcases hmem with rfl | rfl
      · exact absurd hd.1 (hother _ (.inl rfl))
      · exact absurd hd'.1 (hother _ (.inr rfl))
    · obtain ⟨d, hd, hin⟩ := hstep.inward
      have hmem := hg.mem_incident_inward.2 ⟨he, htarget⟩
      rw [hin, List.mem_singleton] at hmem
      exact absurd hd.1 (hmem ▸ hother _ (.inl rfl))

/-- The input and the output of a sub-process go by guids in use, so they are no sub-processes. -/
theorem Made.not_stepAt_ends [StepIds] (h : g.Made (Item.Within U)) (hg : g.WellFormed)
    (hsteps : g.WellStepped) (hfresh : g.FreshSteps U) {s : Vertex} (hs : s ∈ allVertices g)
    (hlabel : s.label = NodeLabel.subProcess.name) :
    (∀ c, g.Joined .columnAndProcess c s.id → ¬ g.StepAt c)
      ∧ ∀ d, g.Joined .columnAndProcess s.id d → ¬ g.StepAt d := by
  have hc := hg.toCoherent
  obtain ⟨a, -, b, -, q, -, hstep, -⟩ := hsteps.steps s hs hlabel
  have hno : ∀ {u n}, u ∈ allVertices g → u.nodeId? = some n → U n → ¬ g.StepAt u.id := by
    rintro u n hu hn hU ⟨s', hs', hlabel', hid⟩
    exact hfresh.ne hs' hlabel' hn hU (hg.eq_of_vertex_id hs' hu hid).symm
  cases h.vertex s hs with
  | node hi hl _ =>
    have hshape := (hi.shape.resolve_right (by simp)).2
    exact absurd (NodeLabel.name_injective (hl.symm.trans hlabel)) hshape
  | process _ hl _ => simp [hl] at hlabel
  | step hi _ _ hu hun hv hvn _ _ hin hout _ =>
    refine ⟨fun c hj => ?_, fun d hj => ?_⟩
    · rw [hstep.source_eq hc hj, ← hstep.source_eq hc hin]
      exact hno hu hun (hi.guids _ (by simp [Item.guids, Fragment.guids]))
    · rw [hstep.target_eq hc hj, ← hstep.target_eq hc hout]
      exact hno hv hvn (hi.guids _ (by simp [Item.guids, Fragment.guids]))

/-- A path from a column that ends at a column goes from column to column. -/
theorem Made.feeds_of_path [StepIds] (h : g.Made (Item.Within U)) (hg : g.WellFormed)
    (hsteps : g.WellStepped) (hfresh : g.FreshSteps U) {c d : VertexId} (hcol : ¬ g.StepAt c)
    (hpath : TransGen (g.Joined .columnAndProcess) c d) (hd : ¬ g.StepAt d) :
    TransGen g.Feeds c d := by
  -- half way through a sub-process, the column before it is what the path has come to
  suffices (¬ g.StepAt d → TransGen g.Feeds c d)
      ∧ (g.StepAt d → ∃ x, ReflTransGen g.Feeds c x ∧ g.Joined .columnAndProcess x d) from this.1 hd
  clear hd
  induction hpath with
  | single hj =>
    exact ⟨fun hd => absurd (h.stepAt_of_joined hj) (by simp [hcol, hd]), fun _ => ⟨c, .refl, hj⟩⟩
  | @tail b d _ hj ih =>
    refine ⟨fun hd => ?_, fun hd => ?_⟩
    · obtain ⟨s, hs, hlabel, rfl⟩ := (h.stepAt_of_joined hj).resolve_right hd
      obtain ⟨x, hx, hin⟩ := ih.2 ⟨s, hs, hlabel, rfl⟩
      exact TransGen.tail' hx ⟨s, hs, hlabel, hin, hj⟩
    · obtain ⟨s, hs, hlabel, rfl⟩ := hd
      have hb := (h.not_stepAt_ends hg hsteps hfresh hs hlabel).1 b hj
      exact ⟨b, (ih.1 hb).to_reflTransGen, hj⟩

/-- Data that flows from column to column flows between their tables. -/
theorem Covered.tables_of_feeds (h : g.Covered) (hg : g.Coherent) (hsteps : g.WellStepped)
    (hsingle : g.SingleTable) {c d : VertexId} (hpath : TransGen g.Feeds c d) :
    ∃ t u, g.Joined .includedIn c t ∧ g.Joined .includedIn d u
      ∧ TransGen (g.Joined .tableAndProcess) t u := by
  have hstep : ∀ {c d}, g.Feeds c d → ∃ t u, g.Joined .includedIn c t ∧ g.Joined .includedIn d u
      ∧ TransGen (g.Joined .tableAndProcess) t u := by
    rintro c d ⟨s, hs, hlabel, hin, hout⟩
    obtain ⟨_, -, _, -, q, -, hisstep, -⟩ := hsteps.steps s hs hlabel
    obtain ⟨t, u, ht, hu⟩ := h s hs hlabel c d q.id hin hout (hisstep.joined_up hg)
    exact ⟨t, u, ht.within, hu.within, .head ht.flow (.single hu.flow)⟩
  induction hpath with
  | single hfeeds => exact hstep hfeeds
  | tail _ hfeeds ih =>
    obtain ⟨t, b, ht, hb, hflow⟩ := ih
    obtain ⟨b', u, hb', hu, hflow'⟩ := hstep hfeeds
    exact ⟨t, u, ht, hu, hflow.trans (hsingle.eq hb hb' ▸ hflow')⟩

end Graph

/-- In every graph that tasks on empty graphs lead to, where no sub-process goes by a guid that the
tasks name: the columns of a sub-process are in tables that stand on the two sides of its process.
So if no vertex is in two tables, the table of a column that data flows to is reached from the table
of the column it flows from. -/
theorem tables_cover_columns [StepIds] (tasks : List Task)
    (hfresh : (Workspace.empty.attemptAll tasks).main.FreshSteps (· ∈ tasks.flatMap Task.guids)) :
    let g := (Workspace.empty.attemptAll tasks).main
    (∀ s ∈ allVertices g, s.label = NodeLabel.subProcess.name →
      ∀ c ∈ allVertices g, ∀ d ∈ allVertices g, ∀ p ∈ allVertices g,
        g.Joined .columnAndProcess c.id s.id → g.Joined .columnAndProcess s.id d.id →
        g.Joined .subprocessToProcess s.id p.id →
          ∃ t ∈ allVertices g, ∃ u ∈ allVertices g, g.Joined .includedIn c.id t.id
            ∧ g.Joined .includedIn d.id u.id ∧ g.Joined .tableAndProcess t.id p.id
            ∧ g.Joined .tableAndProcess p.id u.id)
    ∧ (g.SingleTable → ∀ c ∈ allVertices g, ∀ d ∈ allVertices g,
      c.label ≠ NodeLabel.subProcess.name → d.label ≠ NodeLabel.subProcess.name →
        (TransGen (g.Joined .columnAndProcess) c.id d.id →
          ∃ t u, g.Joined .includedIn c.id t ∧ g.Joined .includedIn d.id u)
        ∧ (ReflTransGen (g.Joined .columnAndProcess) c.id d.id →
          ∀ t u, g.Joined .includedIn c.id t → g.Joined .includedIn d.id u →
            ReflTransGen (g.Joined .tableAndProcess) t u)) := by
  intro g
  have hw := Workspace.regular_attemptAll_empty tasks
  have hg := hw.main
  have hsteps := hw.writes.wellStepped hfresh
  have hcovered : g.Covered := Workspace.covered_attemptAll tasks Workspace.regular_empty
    (fun task htask n hn => List.mem_flatMap.2 ⟨task, htask, hn⟩) hfresh (Graph.covered_empty _)
  refine ⟨fun s hs hlabel c _ d _ p _ hc hd hp => ?_, fun hsingle c hc d hd hcl hdl => ?_⟩
  · obtain ⟨t, u, ht, hu⟩ := hcovered s hs hlabel c.id d.id p.id hc hd hp
    obtain ⟨t, htmem, rfl⟩ := hg.exists_of_joined ht.within
    obtain ⟨u, humem, rfl⟩ := hg.exists_of_joined hu.within
    exact ⟨t, htmem, u, humem, ht.within, hu.within, ht.flow, hu.flow⟩
  · have hno : ∀ {x}, x ∈ allVertices g → x.label ≠ NodeLabel.subProcess.name →
        ¬ g.StepAt x.id := by
      rintro x hx hl ⟨s, hs, hlabel, hid⟩
      exact hl (hg.eq_of_vertex_id hs hx hid ▸ hlabel)
    have htables := fun hpath => hcovered.tables_of_feeds hg.toCoherent hsteps hsingle
      (hw.writes.made.feeds_of_path hg hsteps hfresh (hno hc hcl) hpath (hno hd hdl))
    refine ⟨fun hpath => ?_, fun hpath t u ht hu => ?_⟩
    · obtain ⟨t, u, ht, hu, -⟩ := htables hpath
      exact ⟨t, u, ht, hu⟩
    · rcases Relation.reflTransGen_iff_eq_or_transGen.1 hpath with heq | hpath
      · rw [heq] at hu
        rw [hsingle.eq ht hu]
      · obtain ⟨t', u', ht', hu', hflow⟩ := htables hpath
        rw [hsingle.eq ht ht', hsingle.eq hu hu']
        exact hflow.to_reflTransGen

/-- Three columns, each in a table of its own, and a process from one to the next. -/
def sampleChain : List Task :=
  (["s", "t", "u"].map fun n => .record (.newEntity { guid := n, type := "RelationalTable" }))
  ++ (["a", "b", "c"].map fun n => .record (.newEntity { guid := n, type := "RelationalColumn" }))
  ++ ([("s", "a"), ("t", "b"), ("u", "c")].map fun (m, n) => .record (.newRelationship
    { guid := m ++ n, type := "AttributeForSchema", endOne := m, endTwo := n }))
  ++ [.consolidate {} ⟨"a", "b", ⟨"p", none⟩⟩,
    .record (.updatedEntity { guid := "b", type := "RelationalTable" }),
    .consolidate ⟨1, 0⟩ ⟨"b", "c", ⟨"q", none⟩⟩]

theorem tables_cover_columns_sampleChain :
    let g := (Workspace.empty.attemptAll sampleChain).main
    g.FreshSteps (· ∈ sampleChain.flatMap Task.guids) ∧ g.SingleTable
    ∧ ReflTransGen (g.Joined .columnAndProcess) 0 6
    ∧ g.Joined .includedIn 0 4 ∧ g.Joined .includedIn 6 9
    ∧ ReflTransGen (g.Joined .tableAndProcess) 4 9 := by
  intro g
  have hfresh : g.FreshSteps (· ∈ sampleChain.flatMap Task.guids) := by decide +kernel
  have hsingle : g.SingleTable := by decide +kernel
  obtain ⟨a, ha, haid, hal⟩ : ∃ a ∈ allVertices g, a.id = 0 ∧ a.label ≠ NodeLabel.subProcess.name :=
    by decide +kernel
  obtain ⟨c, hc, hcid, hcl⟩ : ∃ c ∈ allVertices g, c.id = 6 ∧ c.label ≠ NodeLabel.subProcess.name :=
    by decide +kernel
  have hedges : g.Joined .columnAndProcess 0 2 ∧ g.Joined .columnAndProcess 2 1
      ∧ g.Joined .columnAndProcess 1 7 ∧ g.Joined .columnAndProcess 7 6 := by decide +kernel
  have hpath : ReflTransGen (g.Joined .columnAndProcess) 0 6 :=
    .head hedges.1 (.head hedges.2.1 (.head hedges.2.2.1 (.single hedges.2.2.2)))
  have ht : g.Joined .includedIn 0 4 := by decide +kernel
  have hu : g.Joined .includedIn 6 9 := by decide +kernel
  have hflow := ((tables_cover_columns sampleChain hfresh).2 hsingle a ha c hc hal hcl).2
  rw [haid, hcid] at hflow
  exact ⟨hfresh, hsingle, hpath, ht, hu, hflow hpath 4 9 ht hu⟩

end Lineage
