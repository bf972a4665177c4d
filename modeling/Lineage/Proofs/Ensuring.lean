import Lineage.Proofs.Searching
import Lineage.Proofs.Writes

/-!
# What each operation ensures

Every operation of consolidation looks for a thing and writes it where it is missing. For each one
there is the predicate of the items it may write (`TermItem`, `AttachItem`, `AssetItem`, `LinkItem`)
and one theorem: in a well-formed transaction it does not fail, it writes such items and no others,
and afterwards they are all there (`Graph.Has`).
-/

namespace Lineage

open Std Consolidation

/-! ## Items in a graph -/

/-- Whether an item is in a graph, whatever it was written as. -/
def Graph.Has (g : Graph) : Item → Prop
  | .node _ n _ => ∃ v ∈ allVertices g, v.nodeId? = some n
  | .process p =>
    ∃ v ∈ allVertices g, v.label = NodeLabel.process.name ∧ v.nodeId? = some p.guid
  | .edge label m n => ∃ u ∈ allVertices g, ∃ v ∈ allVertices g, u.nodeId? = some m
      ∧ v.nodeId? = some n
      ∧ (g.Joined label u.id v.id ∨ label = .synonym ∧ g.Joined label v.id u.id)
  | .step f => ∃ u ∈ allVertices g, ∃ v ∈ allVertices g, u.nodeId? = some f.columnIn
      ∧ v.nodeId? = some f.columnOut ∧ g.Linked u.id v.id f.process.guid

theorem Graph.Grows.has {g g' : Graph} (h : g.Grows g') : ∀ {i : Item}, g.Has i → g'.Has i
  | .node _ _ _, ⟨v, hv, hid⟩ => ⟨v, h.mem_vertices hv, hid⟩
  | .process _, ⟨v, hv, hlabel⟩ => ⟨v, h.mem_vertices hv, hlabel⟩
  | .edge _ _ _, ⟨u, hu, v, hv, hm, hn, hj⟩ =>
    ⟨u, h.mem_vertices hu, v, h.mem_vertices hv, hm, hn,
      hj.imp h.joined fun ⟨hlabel, hj⟩ => ⟨hlabel, h.joined hj⟩⟩
  | .step _, ⟨u, hu, v, hv, hm, hn, hl⟩ =>
    ⟨u, h.mem_vertices hu, v, h.mem_vertices hv, hm, hn, h.linked hl⟩

theorem Graph.Joined.has {g : Graph} {label : EdgeLabel} {u v : Vertex} {m n : String}
    (h : g.Joined label u.id v.id) (hu : u ∈ allVertices g) (hm : u.nodeId? = some m)
    (hv : v ∈ allVertices g) (hn : v.nodeId? = some n) : g.Has (.edge label m n) :=
  ⟨u, hu, v, hv, hm, hn, .inl h⟩

theorem Graph.Coherent.has_node {g : Graph} (h : g.Coherent) {n : String} {v : Vertex}
    (hv : vertexWith? g Key.nodeId n = some v) (label : NodeLabel) (ps : Properties) :
    g.Has (.node label n ps) :=
  ⟨v, h.mem_of_vertexWith? hv⟩

namespace Transaction

variable [StepIds] {P : Item → Prop} {t : Transaction}

/-! ## Single writes -/

theorem WellFormed.advances_addVertex (h : t.WellFormed) {label : NodeLabel} {n : String}
    {ps : Properties} (hitem : P (.node label n ps)) (hid : ps[Key.nodeId]? = some n)
    (hnone : Lineage.vertexWith? t.commit Key.nodeId n = none) :
    ∃ v t', t.addVertex label.name ps = (v.id, t') ∧ Advances P t t'
      ∧ Lineage.vertexWith? t'.commit Key.nodeId n = some v ∧ v.label = label.name
      ∧ v.properties = ps := by
  have hc := h.coherent_commit
  have hcommit := h.commit_addVertex label.name ps
  let v : Vertex := ⟨t.commit.nextVertex, label.name, ps⟩
  have hvertices : allVertices (t.addVertex label.name ps).2.commit
      = allVertices t.commit ++ [v] := by
    rw [hcommit]
    exact hc.allVertices_addVertex _ _
  have hfound : Lineage.vertexWith? (t.addVertex label.name ps).2.commit Key.nodeId n = some v := by
    rw [hcommit]
    exact hc.vertexWith?_addVertex hnone hid
  have hwf := h.addVertex label.name ps
  refine ⟨v, (t.addVertex label.name ps).2, Prod.ext (h.addVertex_fst _ _) rfl,
    ⟨hwf, rfl, .single hwf.wellFormed_commit ?_⟩, hfound, rfl, rfl⟩
  exact .node (v := v) hitem rfl hid (hc.vertexWith?_eq_none_iff.1 hnone) hvertices
    (by rw [hcommit]; rfl)

theorem WellFormed.advances_addEdge (h : t.WellFormed) {label : EdgeLabel} {m n : String}
    {u v : Vertex} (hitem : P (.edge label m n)) (hu : u ∈ allVertices t.commit)
    (hm : u.nodeId? = some m) (hv : v ∈ allVertices t.commit) (hn : v.nodeId? = some n)
    (hnew : ¬ t.commit.Joined label u.id v.id)
    (hback : label = .synonym → ¬ t.commit.Joined label v.id u.id) :
    ∃ e t', t.addEdge label.name u.id v.id ∅ = .ok (e, t') ∧ Advances P t t'
      ∧ t'.commit.Joined label u.id v.id := by
  obtain ⟨t', hadd, hwf, hbase, hcommit⟩ := h.addEdge hu hv label.name ∅
  have hedges := h.coherent_commit.allEdges_addEdge label.name u.id v.id ∅
  refine ⟨_, t', hadd, ⟨hwf, hbase, .single hwf.wellFormed_commit ?_⟩, ?_⟩
  · rw [hcommit]
    exact .edge hitem hu hm hv hn hnew hback ⟨rfl, rfl, rfl⟩
      (Graph.allVertices_addEdge _ _ _ _ _) hedges
  · rw [hcommit, Graph.Joined, hedges]
    exact ⟨_, List.mem_append_right _ List.mem_cons_self, rfl, rfl, rfl⟩

/-- What each step of a fold ensures for its element is there after the fold. -/
theorem exists_foldlM_advances {α : Type} (step : Transaction → α → Except StoreError Transaction)
    {Q : α → Graph → Prop}
    (hQ : ∀ {a g g'}, g.Coherent → g'.Coherent → g.Grows g' → Q a g → Q a g') :
    ∀ (as : List α) {t : Transaction}, t.WellFormed →
      (∀ t', Advances P t t' → ∀ a ∈ as, ∃ t'', step t' a = .ok t'' ∧ Advances P t' t''
        ∧ Q a t''.commit) →
      ∃ t', as.foldlM step t = .ok t' ∧ Advances P t t' ∧ ∀ a ∈ as, Q a t'.commit
  | [], t, h, _ => ⟨t, rfl, .refl h, by simp⟩
  | a :: as, t, h, hstep => by
    obtain ⟨t₁, h₁, hadv₁, hq₁⟩ := hstep t (.refl h) a List.mem_cons_self
    obtain ⟨t₂, h₂, hadv₂, hq₂⟩ := exists_foldlM_advances step (Q := Q) hQ as hadv₁.wellFormed
      fun t' ht' b hb => hstep t' (hadv₁.trans ht') b (List.mem_cons_of_mem _ hb)
    refine ⟨t₂, ?_, hadv₁.trans hadv₂, ?_⟩
    · rw [List.foldlM_cons, bind_of_ok h₁]
      exact h₂
    · have hc₁ := hadv₁.wellFormed.coherent_commit
      have hc₂ := hadv₂.wellFormed.coherent_commit
      exact List.forall_mem_cons.2 ⟨hQ hc₁ hc₂ hadv₂.grows hq₁, hq₂⟩

end Transaction

open Transaction

variable {P : Item → Prop} {t : Transaction} {buffer : Graph} {depths : SearchDepths}

/-! ## Edges -/

theorem exists_ensureEdge [StepIds] (h : t.WellFormed) {label : EdgeLabel}
    (hlabel : label ≠ .synonym) {m n : String} {u v : Vertex} (hitem : P (.edge label m n))
    (hu : u ∈ allVertices t.commit) (hm : u.nodeId? = some m) (hv : v ∈ allVertices t.commit)
    (hn : v.nodeId? = some n) :
    ∃ t', ensureEdge label u.id v.id t = .ok t' ∧ Advances P t t'
      ∧ t'.commit.Joined label u.id v.id := by
  unfold ensureEdge
  rw [← h.hasEdge_commit]
  split_ifs with hold
  · exact ⟨t, rfl, .refl h, h.coherent_commit.hasEdge_iff_joined.1 hold⟩
  · obtain ⟨e, t', hadd, hadv, hj⟩ := h.advances_addEdge hitem hu hm hv hn
      (fun hj => hold (h.coherent_commit.hasEdge_iff_joined.2 hj)) fun hs => absurd hs hlabel
    exact ⟨t', bind_of_ok hadd _, hadv, hj⟩

theorem exists_ensureSynonym [StepIds] (h : t.WellFormed) {m n : String} {u v : Vertex}
    (hitem : P (.edge .synonym m n)) (hu : u ∈ allVertices t.commit) (hm : u.nodeId? = some m)
    (hv : v ∈ allVertices t.commit) (hn : v.nodeId? = some n) :
    ∃ t', ensureSynonym u.id v.id t = .ok t' ∧ Advances P t t'
      ∧ t'.commit.Has (.edge .synonym m n) := by
  have hc := h.coherent_commit
  have hiff : (hasEdge t u.id EdgeLabel.synonym.name v.id
      || hasEdge t v.id EdgeLabel.synonym.name u.id) = true
      ↔ t.commit.Joined .synonym u.id v.id ∨ t.commit.Joined .synonym v.id u.id := by
    rw [Bool.or_eq_true, ← h.hasEdge_commit, ← h.hasEdge_commit, hc.hasEdge_iff_joined,
      hc.hasEdge_iff_joined]
  simp only [ensureSynonym]
  split_ifs with hold
  · exact ⟨t, rfl, .refl h, u, hu, v, hv, hm, hn, (hiff.1 hold).imp_right fun hj => ⟨rfl, hj⟩⟩
  · rw [hiff, not_or] at hold
    obtain ⟨e, t', hadd, hadv, hj⟩ := h.advances_addEdge hitem hu hm hv hn hold.1 fun _ => hold.2
    exact ⟨t', bind_of_ok hadd _, hadv, u, hadv.mem_vertices hu, v, hadv.mem_vertices hv, hm, hn,
      .inl hj⟩

/-! ## Terms -/

def termProperties (term : Vertex) (n : String) : Properties := term.properties.insert Key.nodeId n

/-- What a term brings along: its vertex, those of its synonyms, and the links to them. -/
inductive TermItem (buffer : Graph) (term : Vertex) (n : String) : Item → Prop
  | self : TermItem buffer term n (.node .glossaryTerm n (termProperties term n))
  | synonym {s : Vertex} {m : String} (mem : s ∈ allVertices buffer) (guid_eq : s.guid? = some m)
      (related : buffer.Related TypeName.synonym term s) :
      TermItem buffer term n (.node .glossaryTerm m (termProperties s m))
  | link {s : Vertex} {m : String} (mem : s ∈ allVertices buffer) (guid_eq : s.guid? = some m)
      (related : buffer.Related TypeName.synonym term s) :
      TermItem buffer term n (.edge .synonym n m)

/-- What the terms of an instance bring along, where an asset with a node id is linked to them. -/
inductive AttachItem (buffer : Graph) (inst : Vertex) (asset : String) : Item → Prop
  | term {term : Vertex} {n : String} {i : Item} (mem : term ∈ allVertices buffer)
      (guid_eq : term.guid? = some n)
      (related : buffer.Related TypeName.semanticAssignment inst term)
      (item : TermItem buffer term n i) : AttachItem buffer inst asset i
  | link {term : Vertex} {n : String} (mem : term ∈ allVertices buffer)
      (guid_eq : term.guid? = some n)
      (related : buffer.Related TypeName.semanticAssignment inst term) :
      AttachItem buffer inst asset (.edge .semantic asset n)

theorem TermItem.isBeside {term : Vertex} {n : String} {i : Item} :
    TermItem buffer term n i → i.IsBeside
  | .self | .synonym _ _ _ | .link _ _ _ => by simp

theorem AttachItem.isBeside {inst : Vertex} {n : String} {i : Item} :
    AttachItem buffer inst n i → i.IsBeside
  | .term _ _ _ item => item.isBeside
  | .link _ _ _ => by simp

theorem AttachItem.label_eq {inst : Vertex} {n m : String} {l : NodeLabel} {ps : Properties}
    (hi : AttachItem buffer inst n (.node l m ps)) : l = .glossaryTerm := by
  cases hi with
  | term _ _ _ hi => cases hi <;> rfl

theorem exists_ensureTerm [StepIds] (h : t.WellFormed) {term : Vertex} {n : String}
    (hn : term.guid? = some n) (hitem : P (.node .glossaryTerm n (termProperties term n))) :
    ∃ v t', ensureTerm term t = (v.id, t') ∧ Advances P t t'
      ∧ vertexWith? t'.commit Key.nodeId n = some v := by
  unfold ensureTerm
  simp only [hn, Option.getD_some, ← h.vertexWith?_commit]
  split
  · next v hv => exact ⟨v, t, rfl, .refl h, hv⟩
  · next hnone =>
    obtain ⟨v, t', hadd, hadv, hv, -⟩ :=
      h.advances_addVertex hitem ExtTreeMap.getElem?_insert_self hnone
    exact ⟨v, t', hadd, hadv, hv⟩

/-- What is done for each synonym of a term. -/
def linkSynonym (term : VertexId) (t : Transaction) (s : Vertex) : Except StoreError Transaction :=
  let (other, t) := ensureTerm s t
  ensureSynonym term other t

/-- What is done for each term that an asset is assigned to. -/
def attachTerm (buffer : Graph) (asset : VertexId) (t : Transaction) (term : Vertex) :
    Except StoreError Transaction := do
  let (id, t) ← ensureTermAndSynonyms buffer term t
  ensureEdge .semantic asset id t

theorem exists_ensureTermAndSynonyms [StepIds] (hb : buffer.WellFormed) (h : t.WellFormed)
    {term : Vertex} {n : String} (hn : term.guid? = some n)
    (hP : ∀ i, TermItem buffer term n i → P i) :
    ∃ v t', ensureTermAndSynonyms buffer term t = .ok (v.id, t') ∧ Advances P t t'
      ∧ vertexWith? t'.commit Key.nodeId n = some v
      ∧ ∀ i, TermItem buffer term n i → t'.commit.Has i := by
  obtain ⟨v, t₁, hterm, hadv₁, hv⟩ := exists_ensureTerm h hn (hP _ .self)
  obtain ⟨synonyms, hrel, hmem⟩ := hb.exists_relatedInstances term TypeName.synonym
  obtain ⟨t₂, hfold, hadv₂, hhas⟩ := exists_foldlM_advances (P := P)
      (Q := fun s g => ∀ m, s.guid? = some m →
        g.Has (.node .glossaryTerm m (termProperties s m)) ∧ g.Has (.edge .synonym n m))
      (linkSynonym v.id)
      (fun _ _ hg hq m hm => ⟨hg.has (hq m hm).1, hg.has (hq m hm).2⟩) synonyms
      hadv₁.wellFormed <| by
    intro t' ht' s hs
    obtain ⟨hsmem, hsome, hrelated⟩ := (hmem s).1 hs
    obtain ⟨m, hm⟩ := Option.isSome_iff_exists.1 hsome
    obtain ⟨u, t₃, hother, hadv, hu⟩ :=
      exists_ensureTerm ht'.wellFormed hm (hP _ (.synonym hsmem hm hrelated))
    have hvmem := hadv₁.wellFormed.coherent_commit.mem_of_vertexWith? hv
    have humem := hadv.wellFormed.coherent_commit.mem_of_vertexWith? hu
    obtain ⟨t'', hsyn, hadv', hhas⟩ := exists_ensureSynonym hadv.wellFormed
      (hP _ (.link hsmem hm hrelated)) (hadv.mem_vertices (ht'.mem_vertices hvmem.1)) hvmem.2
      humem.1 humem.2
    refine ⟨t'', ?_, hadv.trans hadv', fun m' hm' => ?_⟩
    · unfold linkSynonym
      rw [hother]
      exact hsyn
    · obtain rfl : m = m' := Option.some.inj (hm.symm.trans hm')
      exact ⟨hadv'.grows.has (hadv.wellFormed.coherent_commit.has_node hu _ _), hhas⟩
  have hv₂ := hadv₂.vertexWith? hadv₁.wellFormed hv
  refine ⟨v, t₂, ?_, hadv₁.trans hadv₂, hv₂, ?_⟩
  · unfold ensureTermAndSynonyms
    rw [hterm]
    exact (bind_of_ok hrel _).trans (bind_of_ok hfold _)
  · intro i hi
    cases hi with
    | self => exact hadv₂.wellFormed.coherent_commit.has_node hv₂ _ _
    | synonym hs hm hrelated => exact (hhas _ ((hmem _).2 ⟨hs, by simp [hm], hrelated⟩) _ hm).1
    | link hs hm hrelated => exact (hhas _ ((hmem _).2 ⟨hs, by simp [hm], hrelated⟩) _ hm).2

/-- An asset is linked to the terms that an instance is assigned to, as these are looked up. -/
def Graph.Explained (g buffer : Graph) (inst : Vertex) (asset : VertexId) : Prop :=
  ∀ term ∈ allVertices buffer, ∀ n, term.guid? = some n →
    buffer.Related TypeName.semanticAssignment inst term →
      ∃ v, vertexWith? g Key.nodeId n = some v ∧ g.Joined .semantic asset v.id

theorem Graph.Grows.explained {g g' : Graph} (h : g.Grows g') (hg : g.Coherent) (hg' : g'.Coherent)
    {inst : Vertex} {asset : VertexId} (he : g.Explained buffer inst asset) :
    g'.Explained buffer inst asset := by
  intro term hterm n hn hrelated
  obtain ⟨v, hv, hj⟩ := he term hterm n hn hrelated
  exact ⟨v, h.vertexWith? hg hg' hv, h.joined hj⟩

theorem exists_attachTerms [StepIds] (hb : buffer.WellFormed) (h : t.WellFormed) (inst : Vertex)
    {asset : Vertex} {n : String} (hasset : asset ∈ allVertices t.commit)
    (hn : asset.nodeId? = some n) (hP : ∀ i, AttachItem buffer inst n i → P i) :
    ∃ t', attachTerms buffer inst.id asset.id t = .ok t' ∧ Advances P t t'
      ∧ (∀ i, AttachItem buffer inst n i → t'.commit.Has i)
      ∧ t'.commit.Explained buffer inst asset.id := by
  obtain ⟨terms, hrel, hmem⟩ := hb.exists_relatedInstances inst TypeName.semanticAssignment
  obtain ⟨t₂, hfold, hadv₂, hhas⟩ := exists_foldlM_advances (P := P)
      (Q := fun term g => ∀ m, term.guid? = some m →
        (∀ i, TermItem buffer term m i → g.Has i)
          ∧ ∃ v, vertexWith? g Key.nodeId m = some v ∧ g.Joined .semantic asset.id v.id)
      (attachTerm buffer asset.id) (fun hg hg' hgrows hq m hm => by
        obtain ⟨hhas, v, hv, hj⟩ := hq m hm
        exact ⟨fun i hi => hgrows.has (hhas i hi), v, hgrows.vertexWith? hg hg' hv,
          hgrows.joined hj⟩) terms h <| by
    intro t' ht' term hterm
    obtain ⟨htmem, hsome, hrelated⟩ := (hmem term).1 hterm
    obtain ⟨m, hm⟩ := Option.isSome_iff_exists.1 hsome
    obtain ⟨v, t₁, hensure, hadv, hv, hhas⟩ := exists_ensureTermAndSynonyms hb ht'.wellFormed hm
      fun i hi => hP i (.term htmem hm hrelated hi)
    have hvmem := hadv.wellFormed.coherent_commit.mem_of_vertexWith? hv
    have hamem := hadv.mem_vertices (ht'.mem_vertices hasset)
    obtain ⟨t₂, hedge, hadv', hlink⟩ := exists_ensureEdge hadv.wellFormed (by decide)
      (hP _ (.link htmem hm hrelated)) hamem hn hvmem.1 hvmem.2
    refine ⟨t₂, ?_, hadv.trans hadv', fun m' hm' => ?_⟩
    · unfold attachTerm
      rw [bind_of_ok hensure]
      exact hedge
    · obtain rfl : m = m' := Option.some.inj (hm.symm.trans hm')
      exact ⟨fun i hi => hadv'.grows.has (hhas i hi), v, hadv'.vertexWith? hadv.wellFormed hv,
        hlink⟩
  have hterms : ∀ {term m}, term ∈ allVertices buffer → term.guid? = some m →
      buffer.Related TypeName.semanticAssignment inst term → _ := fun hterm hm hrelated =>
    hhas _ ((hmem _).2 ⟨hterm, by simp [hm], hrelated⟩) _ hm
  have hc := hadv₂.wellFormed.coherent_commit
  refine ⟨t₂, ?_, hadv₂, fun i hi => ?_, fun term hterm m hm hrelated =>
    (hterms hterm hm hrelated).2⟩
  · unfold attachTerms
    rw [bind_of_ok hrel]
    exact hfold
  · cases hi with
    | term hterm hm hrelated hi => exact (hterms hterm hm hrelated).1 i hi
    | link hterm hm hrelated =>
      obtain ⟨v, hv, hj⟩ := (hterms hterm hm hrelated).2
      have hvmem := hc.mem_of_vertexWith? hv
      exact hj.has (hadv₂.mem_vertices hasset) hn hvmem.1 hvmem.2

end Lineage
