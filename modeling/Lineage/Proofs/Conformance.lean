import Lineage.Proofs.Accepted
import Lineage.Proofs.Tasks

/-!
# Conformance to the vocabulary

A look-up by node id takes whatever vertex it finds, so what an edge joins hangs on all that was
written before. Where every guid plays one role (`Role`) and the errands of a run respect the roles
(`Errand.Respects`), the items of each fragment fit them (`Item.Fits`), and a graph conforms to the
vocabulary (`Graph.Conforms`) from one write to the next: a vertex has the label of its role and
shares its node id with no other, and an edge joins labels that the vocabulary admits
(`conforms_run`).
-/

namespace Lineage

open Std Consolidation

/-! ## Roles and labels -/

/-- What a guid stands for. -/
inductive Role where
  | column
  | table
  | term
  | process
  | other
deriving DecidableEq, Repr

/-- The label of the vertex made for a guid in a role. -/
def Role.label? : Role → Option NodeLabel
  | column => some .column
  | table => some .table
  | term => some .glossaryTerm
  | process => some .process
  | other => none

/-- What a process can take data from, or write to. -/
def Role.isAsset : Role → Bool
  | column | table => true
  | _ => false

def NodeLabel.isAsset : NodeLabel → Bool
  | column | table => true
  | _ => false

/-- The labels that an edge of a label can run from and to; there are none for a condensed edge. -/
def EdgeLabel.admits : EdgeLabel → NodeLabel → NodeLabel → Bool
  | columnAndProcess, asset, .subProcess => asset.isAsset
  | columnAndProcess, .subProcess, asset => asset.isAsset
  | tableAndProcess, .table, .process => true
  | tableAndProcess, .process, .table => true
  | subprocessToProcess, .subProcess, .process => true
  | includedIn, asset, .table => asset.isAsset
  | semantic, asset, .glossaryTerm => asset.isAsset
  | synonym, .glossaryTerm, .glossaryTerm => true
  | _, _, _ => false

theorem Role.exists_label_of_isAsset {r : Role} (h : r.isAsset) :
    ∃ l, r.label? = some l ∧ l.isAsset := by
  cases r <;> simp_all [isAsset, label?, NodeLabel.isAsset]

theorem Role.label?_ne {r : Role} {l : NodeLabel} (h : r.label? = some l) :
    l ≠ .condensed ∧ l ≠ .subProcess := by
  cases r <;> simp_all [label?, eq_comm]

theorem Role.label?_of_isAsset {r : Role} {inst : Vertex} (h : r.isAsset)
    (htype : TypeName.isTableLike inst.label = true ↔ r = .table) :
    r.label? = some (assetLabel inst) := by
  unfold assetLabel
  cases r <;> simp_all [isAsset, label?]

/-! ## Errands -/

/-- An entity is of a type that encloses columns just where its guid is that of a table. -/
def Entity.Respects (R : String → Role) (e : Entity) : Prop :=
  TypeName.isTableLike e.type = true ↔ R e.guid = .table

/-- One end of an assignment is a term, and both ends of a synonym. -/
def Relationship.Respects (R : String → Role) (r : Relationship) : Prop :=
  (r.type = TypeName.semanticAssignment → (R r.endOne = .term ↔ R r.endTwo ≠ .term))
    ∧ (r.type = TypeName.synonym → R r.endOne = .term ∧ R r.endTwo = .term)

def Event.Respects (R : String → Role) : Event → Prop
  | newEntity e | updatedEntity e => e.Respects R
  | newRelationship r => r.Respects R
  | processContext p _ => p.Respects R ∧ R p.guid = .process

/-- A process runs from columns or tables to columns or tables. -/
def Errand.Respects (R : String → Role) : Errand → Prop
  | record e => e.Respects R
  | consolidate columnIn columnOut process =>
    (R columnIn).isAsset ∧ (R columnOut).isAsset ∧ R process = .process

instance {R : String → Role} {e : Entity} : Decidable (e.Respects R) :=
  inferInstanceAs (Decidable (_ ↔ _))

instance {R : String → Role} {r : Relationship} : Decidable (r.Respects R) :=
  inferInstanceAs (Decidable (_ ∧ _))

instance {R : String → Role} : (e : Event) → Decidable (e.Respects R)
  | .newEntity e | .updatedEntity e => inferInstanceAs (Decidable (e.Respects R))
  | .newRelationship r => inferInstanceAs (Decidable (r.Respects R))
  | .processContext _ _ => inferInstanceAs (Decidable (_ ∧ _))

instance {R : String → Role} : (o : Errand) → Decidable (o.Respects R)
  | .record e => inferInstanceAs (Decidable (e.Respects R))
  | .consolidate _ _ _ => inferInstanceAs (Decidable (_ ∧ _))

/-! ## The buffer graph -/

/-- Instances are of the types of their roles, and related as the roles have it. -/
structure Graph.Respects (R : String → Role) (buffer : Graph) : Prop where
  type : ∀ v ∈ allVertices buffer, ∀ n, v.guid? = some n →
    (TypeName.isTableLike v.label = true ↔ R n = .table)
  assignment : ∀ u ∈ allVertices buffer, ∀ v ∈ allVertices buffer, ∀ m n, u.guid? = some m →
    v.guid? = some n → buffer.Related TypeName.semanticAssignment u v →
      (R m = .term ↔ R n ≠ .term)
  synonym : ∀ u ∈ allVertices buffer, ∀ v ∈ allVertices buffer, ∀ m n, u.guid? = some m →
    v.guid? = some n → buffer.Related TypeName.synonym u v → R m = .term ∧ R n = .term

section Buffer

variable {R : String → Role} {buffer : Graph} {acc : List Event}

theorem Graph.Records.exists_entity (h : buffer.Records acc) {v : Vertex}
    (hv : v ∈ allVertices buffer) {n : String} (hn : v.guid? = some n) :
    ∃ e ∈ acc, ∃ entity, e.entity? = some entity ∧ entity.guid = n ∧ v.label = entity.type := by
  obtain ⟨m, first, hfirst, hlabel, hstored⟩ := h.vertex v hv
  obtain rfl : n = m := Option.some.inj (hn.symm.trans hstored.guid_eq)
  obtain ⟨hmem, hguid⟩ := List.mem_filter.1 (List.mem_of_mem_head? hfirst)
  obtain ⟨e, he, hentity⟩ := List.mem_filterMap.1 hmem
  exact ⟨e, he, first, hentity, beq_iff_eq.1 hguid, hlabel⟩

theorem Graph.Records.exists_relationship (h : buffer.Records acc) (hb : buffer.Identified)
    {e : Edge} (he : e ∈ allEdges buffer) {u v : Vertex} (hu : u ∈ allVertices buffer)
    (hv : v ∈ allVertices buffer) (hsource : e.source = u.id) (htarget : e.target = v.id) :
    ∃ r, .newRelationship r ∈ acc ∧ r.type = e.label ∧ u.guid? = some r.endOne
      ∧ v.guid? = some r.endTwo := by
  obtain ⟨one, two, first, hfirst, ⟨u', hu', v', hv', hone, htwo, hsource', htarget'⟩, -⟩ :=
    h.edge e he
  obtain rfl := hb.eq_of_vertex_id hu hu' (hsource.symm.trans hsource')
  obtain rfl := hb.eq_of_vertex_id hv hv' (htarget.symm.trans htarget')
  obtain ⟨hmem, hends⟩ := List.mem_filter.1 (List.mem_of_mem_head? hfirst)
  simp only [Bool.and_eq_true, beq_iff_eq] at hends
  obtain ⟨⟨htype, rfl⟩, rfl⟩ := hends
  obtain ⟨event, hevent, hrel⟩ := List.mem_filterMap.1 hmem
  cases event with
  | newRelationship r =>
    obtain rfl := Option.some.inj hrel
    exact ⟨r, hevent, htype, hone, htwo⟩
  | newEntity | updatedEntity | processContext => cases hrel

/-- A buffer graph respects the roles that its events do. -/
theorem Graph.Records.respects (h : buffer.Records acc) (hb : buffer.Identified)
    (hacc : ∀ e ∈ acc, e.Respects R) : buffer.Respects R where
  type v hv n hn := by
    obtain ⟨e, he, entity, hentity, rfl, hlabel⟩ := h.exists_entity hv hn
    have hr := hacc e he
    rw [hlabel]
    cases e with
    | newEntity | updatedEntity => exact Option.some.inj hentity ▸ hr
    | processContext => exact Option.some.inj hentity ▸ hr.1
    | newRelationship => cases hentity
  assignment u hu v hv m n hm hn hrel := by
    obtain ⟨e, he, hlabel, ⟨hs, ht⟩ | ⟨hs, ht⟩⟩ := hrel
    · obtain ⟨r, hr, htype, hone, htwo⟩ := h.exists_relationship hb he hu hv hs ht
      have := (hacc _ hr).1 (htype.trans hlabel)
      rwa [Option.some.inj (hm.symm.trans hone), Option.some.inj (hn.symm.trans htwo)]
    · obtain ⟨r, hr, htype, hone, htwo⟩ := h.exists_relationship hb he hv hu hs ht
      have := (hacc _ hr).1 (htype.trans hlabel)
      rw [Option.some.inj (hm.symm.trans htwo), Option.some.inj (hn.symm.trans hone)]
      tauto
  synonym u hu v hv m n hm hn hrel := by
    obtain ⟨e, he, hlabel, ⟨hs, ht⟩ | ⟨hs, ht⟩⟩ := hrel
    · obtain ⟨r, hr, htype, hone, htwo⟩ := h.exists_relationship hb he hu hv hs ht
      rw [Option.some.inj (hm.symm.trans hone), Option.some.inj (hn.symm.trans htwo)]
      exact (hacc _ hr).2 (htype.trans hlabel)
    · obtain ⟨r, hr, htype, hone, htwo⟩ := h.exists_relationship hb he hv hu hs ht
      rw [Option.some.inj (hm.symm.trans htwo), Option.some.inj (hn.symm.trans hone)]
      exact ((hacc _ hr).2 (htype.trans hlabel)).symm

end Buffer

/-! ## Items -/

/-- An item fits the roles of the guids it names. -/
def Item.Fits (R : String → Role) : Item → Prop
  | .node l n _ => (R n).label? = some l
  | .process p => R p.guid = .process
  | .edge l m n => ∃ a b, (R m).label? = some a ∧ (R n).label? = some b ∧ l.admits a b
  | .step f => (R f.columnIn).isAsset ∧ (R f.columnOut).isAsset ∧ R f.process.guid = .process

section Items

variable {R : String → Role} {buffer : Graph} {depths : SearchDepths}

theorem TermItem.fits (hr : buffer.Respects R) {term : Vertex} {n : String} {i : Item}
    (hterm : term ∈ allVertices buffer) (hn : term.guid? = some n) (hR : R n = .term)
    (hi : TermItem buffer term n i) : i.Fits R := by
  cases hi with
  | self => simp [Item.Fits, hR, Role.label?]
  | synonym hs hm hrel =>
    simp [Item.Fits, (hr.synonym _ hterm _ hs _ _ hn hm hrel).2, Role.label?]
  | link hs hm hrel =>
    simp [Item.Fits, hR, (hr.synonym _ hterm _ hs _ _ hn hm hrel).2, Role.label?,
      EdgeLabel.admits]

theorem AttachItem.fits (hr : buffer.Respects R) {inst : Vertex} {n : String} {i : Item}
    (hinst : inst ∈ allVertices buffer) (hn : inst.guid? = some n) (hR : (R n).isAsset)
    (hi : AttachItem buffer inst n i) : i.Fits R := by
  have hterm : ∀ {term : Vertex} {m : String}, term ∈ allVertices buffer →
      term.guid? = some m → buffer.Related TypeName.semanticAssignment inst term →
        R m = .term := by
    intro term m hterm hm hrel
    by_contra hne
    rw [(hr.assignment _ hinst _ hterm _ _ hn hm hrel).2 hne] at hR
    cases hR
  cases hi with
  | term hmem hm hrel hi => exact hi.fits hr hmem hm (hterm hmem hm hrel)
  | link hmem hm hrel =>
    obtain ⟨a, ha, hasset⟩ := Role.exists_label_of_isAsset hR
    exact ⟨a, .glossaryTerm, ha, by rw [hterm hmem hm hrel]; rfl, hasset⟩

theorem Item.fits_flowItem {role : TableRole} {n p : String} (hn : R n = .table)
    (hp : R p = .process) : (flowItem role n p).Fits R := by
  cases role <;> simp [flowItem, Item.Fits, hn, hp, Role.label?, EdgeLabel.admits]

/-- What a fragment is made of fits the roles where the fragment and the buffer graph do. -/
theorem ExactItem.fits (hb : buffer.Identified) (hr : buffer.Respects R) {f : Fragment}
    (hcolumn : ∀ role, (R (f.column role)).isAsset) (hprocess : R f.process.guid = .process)
    {i : Item} (hi : ExactItem depths buffer f i) : i.Fits R := by
  have htable : ∀ {role inst table n}, vertexWith? buffer Key.guid (f.column role) = some inst →
      Enclosed depths buffer inst table n → table ∈ allVertices buffer ∧ R n = .table := by
    intro role inst table n hinst henc
    obtain ⟨hmem, hlike⟩ := henc.mem hb.toWellFormed (hb.mem_of_vertexWith? hinst).1
    exact ⟨hmem, (hr.type table hmem n henc.2).1 hlike⟩
  cases hi with
  | core hi =>
    cases hi with
    | @asset role inst _ hinst hi =>
      obtain ⟨hmem, hn⟩ := hb.mem_of_vertexWith? hinst
      cases hi with
      | self _ =>
        exact Role.label?_of_isAsset (hcolumn role) (hr.type inst hmem _ hn)
      | attached hi => exact hi.fits hr hmem hn (hcolumn role)
    | step => exact ⟨hcolumn .input, hcolumn .output, hprocess⟩
    | process => exact hprocess
    | table hinst henc hi =>
      cases hi
      simp [Item.Fits, (htable hinst henc).2, Role.label?]
  | flow hinst henc => exact Item.fits_flowItem (htable hinst henc).2 hprocess
  | @within role _ _ _ hinst henc =>
    obtain ⟨a, ha, hasset⟩ := Role.exists_label_of_isAsset (hcolumn role)
    exact ⟨a, .table, ha, by rw [(htable hinst henc).2]; rfl, hasset⟩
  | attached hinst henc hi =>
    obtain ⟨hmem, hR⟩ := htable hinst henc
    exact hi.fits hr hmem henc.2 (by rw [hR]; rfl)

end Items

/-! ## Graphs -/

/-- A vertex has a label of the vocabulary, and that of its role where it goes by a guid in use,
which no other does; an edge joins vertices of labels that the vocabulary admits for it. -/
structure Graph.Conforms (R : String → Role) (U : String → Prop) (g : Graph) : Prop where
  vertex : ∀ v ∈ allVertices g, ∃ l : NodeLabel, v.label = l.name ∧ l ≠ .condensed
    ∧ ∀ n, v.nodeId? = some n → U n → (R n).label? = some l
  unique : ∀ u ∈ allVertices g, ∀ v ∈ allVertices g, ∀ n, U n → u.nodeId? = some n →
    v.nodeId? = some n → u = v
  edge : ∀ e ∈ allEdges g, ∃ u ∈ allVertices g, ∃ v ∈ allVertices g, ∃ l a b, e.Runs l u v
    ∧ u.label = a.name ∧ v.label = b.name ∧ l.admits a b

section Writes

variable {R : String → Role} {U : String → Prop} {g g' : Graph}

/-- An item names guids in use and fits their roles. -/
structure Item.Proper (R : String → Role) (U : String → Prop) (i : Item) : Prop
    extends i.Within U where
  fits : i.Fits R

theorem Graph.conforms_empty (name : String) : (Graph.empty name).Conforms R U where
  vertex v hv := by simp at hv
  unique u hu := by simp at hu
  edge e he := by simp at he

/-- A vertex found by a guid in use has the label of its role. -/
theorem Graph.Conforms.label_eq (h : g.Conforms R U) {v : Vertex} (hv : v ∈ allVertices g)
    {n : String} (hn : v.nodeId? = some n) (hU : U n) {l : NodeLabel}
    (hl : (R n).label? = some l) : v.label = l.name := by
  obtain ⟨l', hlabel, -, hrole⟩ := h.vertex v hv
  rw [hlabel, Option.some.inj ((hrole n hn hU).symm.trans hl)]

/-- Vertices and edges behind those of a graph that conforms. -/
theorem Graph.Conforms.append (h : g.Conforms R U) {vs : List Vertex} {es : List Edge}
    (hvs : allVertices g' = allVertices g ++ vs) (hes : allEdges g' = allEdges g ++ es)
    (hvertex : ∀ v ∈ vs, ∃ l : NodeLabel, v.label = l.name ∧ l ≠ .condensed
      ∧ ∀ n, v.nodeId? = some n → U n → (R n).label? = some l)
    (hunique : ∀ v ∈ vs, ∀ n, U n → v.nodeId? = some n →
      (∀ u ∈ allVertices g, u.nodeId? ≠ some n) ∧ ∀ u ∈ vs, u.nodeId? = some n → u = v)
    (hedge : ∀ e ∈ es, ∃ u ∈ allVertices g', ∃ v ∈ allVertices g', ∃ l a b, e.Runs l u v
      ∧ u.label = a.name ∧ v.label = b.name ∧ l.admits a b) : g'.Conforms R U := by
  refine ⟨fun v hv => ?_, fun u hu v hv n hU hun hvn => ?_, fun e he => ?_⟩
  · rw [hvs] at hv
    exact (List.mem_append.1 hv).elim (h.vertex v) (hvertex v)
  · rw [hvs] at hu hv
    rcases List.mem_append.1 hu with hu | hu <;> rcases List.mem_append.1 hv with hv | hv
    · exact h.unique u hu v hv n hU hun hvn
    · exact absurd hun ((hunique v hv n hU hvn).1 u hu)
    · exact absurd hvn ((hunique u hu n hU hun).1 v hv)
    · exact (hunique v hv n hU hvn).2 u hu hun
  · rw [hes] at he
    rcases List.mem_append.1 he with he | he
    · obtain ⟨u, hu, v, hv, hruns⟩ := h.edge e he
      exact ⟨u, hvs ▸ List.mem_append_left _ hu, v, hvs ▸ List.mem_append_left _ hv, hruns⟩
    · exact hedge e he

variable [StepIds]

theorem StepWrite.conforms {f : Fragment} {u v s q : Vertex} {vs : List Vertex}
    {e₁ e₂ e₃ : Edge} (hadded : StepWrite (Item.Proper R U) g g' f u v s q vs e₁ e₂ e₃)
    (hg : g.WellFormed) (hf : g'.FreshSteps U) (h : g.Conforms R U) : g'.Conforms R U := by
  obtain ⟨hin, hout, hprocess⟩ := hadded.item.fits
  have hU : ∀ n ∈ f.guids, U n := hadded.item.guids
  obtain ⟨humem, hun⟩ := hg.mem_of_vertexWith? hadded.source_eq
  obtain ⟨hvmem, hvn⟩ := hg.mem_of_vertexWith? hadded.target_eq
  obtain ⟨a, ha, haasset⟩ := Role.exists_label_of_isAsset hin
  obtain ⟨b, hb, hbasset⟩ := Role.exists_label_of_isAsset hout
  have hulabel := h.label_eq humem hun (hU _ (by simp [Fragment.guids])) ha
  have hvlabel := h.label_eq hvmem hvn (hU _ (by simp [Fragment.guids])) hb
  have hqU : U f.process.guid := hU _ (by simp [Fragment.guids])
  have hqlabel : (R f.process.guid).label? = some .process := by rw [hprocess]; rfl
  have hold : ∀ {w}, w ∈ allVertices g → w ∈ allVertices g' := fun hw =>
    hadded.vertices_eq ▸ List.mem_append_left _ hw
  have hfresh : ∀ n, s.nodeId? = some n → ¬ U n := fun n hn =>
    hf s hadded.mem_step hadded.label_eq n hn
  refine h.append hadded.vertices_eq hadded.edges_eq (fun w hw => ?_) (fun w hw n hUn hn => ?_)
    fun e he => ?_
  · rcases List.mem_cons.1 hw with rfl | hw
    · exact ⟨.subProcess, hadded.label_eq, by decide, fun n hn hUn => absurd hUn (hfresh n hn)⟩
    · rw [hadded.owner.eq_of_mem hw]
      refine ⟨.process, hadded.owner.label_eq, by decide, fun n hn _ => ?_⟩
      rw [← Option.some.inj (hadded.owner.nodeId_eq.symm.trans hn), hqlabel]
  · rcases List.mem_cons.1 hw with rfl | hw
    · exact absurd hUn (hfresh n hn)
    · obtain rfl := hadded.owner.eq_of_mem hw
      obtain rfl := Option.some.inj (hadded.owner.nodeId_eq.symm.trans hn)
      refine ⟨fun x hx hxn => ?_, fun x hx hxn => ?_⟩
      · -- a vertex with the guid of the process would be a process
        cases hadded.owner with
        | existing _ _ _ => cases hw
        | created _ _ _ hnew => exact hnew x hx (h.label_eq hx hxn hUn hqlabel) hxn
      · rcases List.mem_cons.1 hx with rfl | hx
        · exact absurd hUn (hfresh _ hxn)
        · exact hadded.owner.eq_of_mem hx
  · have hs := hadded.mem_step
    simp only [List.mem_cons, List.not_mem_nil, or_false] at he
    rcases he with rfl | rfl | rfl
    · exact ⟨u, hold humem, s, hs, _, a, .subProcess, hadded.runs_in, hulabel, hadded.label_eq,
        haasset⟩
    · refine ⟨s, hs, v, hold hvmem, _, .subProcess, b, hadded.runs_out, hadded.label_eq, hvlabel,
        ?_⟩
      cases b <;> simp_all [EdgeLabel.admits, NodeLabel.isAsset]
    · exact ⟨s, hs, q, hadded.mem_owner, _, .subProcess, .process, hadded.runs_up,
        hadded.label_eq, hadded.owner.label_eq, rfl⟩

theorem Write.conforms (hg : g.WellFormed) (hf : g'.FreshSteps U)
    (hw : Write (Item.Proper R U) g g') (h : g.Conforms R U) : g'.Conforms R U := by
  cases hw with
  | @node l n w hitem hlabel hid hnew hvs hes =>
    refine h.append hvs (hes.trans (List.append_nil _).symm) (fun v hv => ?_)
      (fun v hv m _ hm => ?_) (by simp)
    · obtain rfl := List.mem_singleton.1 hv
      refine ⟨l, hlabel, (Role.label?_ne hitem.fits).1, fun m hm _ => ?_⟩
      exact Option.some.inj (hid.symm.trans hm) ▸ hitem.fits
    · obtain rfl := List.mem_singleton.1 hv
      obtain rfl := Option.some.inj (hid.symm.trans hm)
      exact ⟨hnew, fun u hu _ => List.mem_singleton.1 hu⟩
  | @edge l m n u v e hitem hu hm hv hn _ _ hruns hvs hes =>
    obtain ⟨a, b, ha, hb, hadmits⟩ := hitem.fits
    refine h.append (hvs.trans (List.append_nil _).symm) hes (by simp) (by simp) fun d hd => ?_
    rw [List.mem_singleton.1 hd]
    exact ⟨u, hvs ▸ hu, v, hvs ▸ hv, l, a, b, hruns,
      h.label_eq hu hm (hitem.guids m (by simp [Item.guids])) ha,
      h.label_eq hv hn (hitem.guids n (by simp [Item.guids])) hb, hadmits⟩
  | step hadded => exact hadded.conforms hg hf h

theorem Writes.conforms {name : String} (hw : Writes (Item.Proper R U) (.empty name) g)
    (hf : g.FreshSteps U) : g.Conforms R U :=
  hw.invariant (fun hgrows hf => hgrows.freshSteps hf)
    (fun hg _ hf hw h => hw.conforms hg hf h) (Graph.wellFormed_empty name) hf
    (Graph.conforms_empty name)

end Writes

/-! ## Runs -/

namespace Workspace

variable [StepIds]

/-- The buffer graph was told of nothing but what respects the roles, and no item that was written
to the main graph misses them. -/
structure Proper (R : String → Role) (U : String → Prop) (start : Graph) (w : Workspace) : Prop
    extends w.Regular U start where
  told : ∃ acc, w.buffer.Records acc ∧ ∀ e ∈ acc, e.Respects R
  proper : Writes (Item.Proper R U) start w.main

variable {R : String → Role} {U : String → Prop} {name : String} {w : Workspace}

theorem proper_empty : empty.Proper R U (.empty GraphName.main.name) where
  toRegular := regular_empty
  told := ⟨[], Graph.records_empty _, by simp⟩
  proper := .refl _

theorem Proper.attempt_record (hw : w.Proper R U (.empty name)) {e : Event}
    (hregular : (w.attempt (.record e)).Regular U (.empty name)) (he : e.Respects R) :
    (w.attempt (.record e)).Proper R U (.empty name) := by
  obtain ⟨acc, hrecords, hacc⟩ := hw.told
  rcases happly : Buffer.apply w.buffer e with err | ⟨fs, buffer⟩
  · have heq : w.attempt (.record e) = w := by simp only [attempt, happly]
    exact heq.symm ▸ hw
  · rw [Workspace.attempt_record happly] at hregular ⊢
    refine ⟨hregular, ⟨acc ++ [e], (hrecords.apply hw.buffer happly).2, fun e' he' => ?_⟩,
      hw.proper⟩
    rcases List.mem_append.1 he' with he' | he'
    · exact hacc e' he'
    · exact List.mem_singleton.1 he' ▸ he

theorem Proper.attempt_consolidate (hw : w.Proper R U (.empty name)) {depths : SearchDepths}
    {f : Fragment} (hregular : (w.attempt (.consolidate depths f)).Regular U (.empty name))
    (hfresh : (w.attempt (.consolidate depths f)).main.FreshSteps U) (hU : ∀ n ∈ f.guids, U n)
    (hf : (Task.consolidate depths f).errand.Respects R) :
    (w.attempt (.consolidate depths f)).Proper R U (.empty name) := by
  obtain ⟨acc, hrecords, hacc⟩ := hw.told
  have hcases := consolidate_cases depths hw.buffer.toWellFormed hw.main f
  rcases hc : Consolidation.consolidate depths w.buffer w.main f with err | ⟨outcome, main⟩
  · have heq : w.attempt (.consolidate depths f) = w := by simp only [attempt, hc]
    exact heq.symm ▸ hw
  · rw [Workspace.attempt_consolidate hc] at hregular hfresh ⊢
    rw [hc] at hcases
    refine ⟨hregular, hw.told, ?_⟩
    cases hcases with
    | alreadyPresent _ _ => exact hw.proper
    | @applied x _ _ _ _ _ _ hplaced hwrites _ _ _ _ =>
      have hx := guid_of_placed hw.buffer hw.guids hregular.main (hregular.writes.named hfresh)
        hfresh hplaced
      have hcolumn : ∀ role, (R (f.column role)).isAsset := fun role => by
        cases role
        · exact hf.1
        · exact hf.2.1
      refine hw.proper.trans (hwrites.mono fun i hi => ⟨?_, ?_⟩)
      · exact hi.within hw.guids hw.buffer.toWellFormed hU
      · exact ((fragmentItem_iff hw.buffer hx).1 hi).fits hw.buffer
          (hrecords.respects hw.buffer hacc) hcolumn hf.2.2

theorem Proper.attempt (hw : w.Proper R U (.empty name)) {task : Task}
    (hU : ∀ n ∈ task.guids, U n) (htask : task.errand.Respects R)
    (hfresh : (w.attempt task).main.FreshSteps U) :
    (w.attempt task).Proper R U (.empty name) := by
  have hregular := hw.toRegular.attempt hU
  cases task with
  | record e => exact hw.attempt_record hregular htask
  | consolidate depths f => exact hw.attempt_consolidate hregular hfresh hU htask

theorem Proper.attemptAll : ∀ (tasks : List Task) {w : Workspace}, w.Proper R U (.empty name) →
    (∀ task ∈ tasks, (∀ n ∈ task.guids, U n) ∧ task.errand.Respects R) →
      (w.attemptAll tasks).main.FreshSteps U → (w.attemptAll tasks).Proper R U (.empty name)
  | [], _, hw, _, _ => hw
  | task :: tasks, w, hw, h, hfresh => by
    obtain ⟨hU, htask⟩ := h task List.mem_cons_self
    have hlater := later_attempt hw.buffer hw.main task
    have hrest := later_attemptAll tasks hlater.buffer hlater.main
    exact Proper.attemptAll tasks (hw.attempt hU htask (hrest.grows.freshSteps hfresh))
      (fun task' h' => h task' (List.mem_cons_of_mem _ h')) hfresh

end Workspace

/-- Where the errands of a run respect the roles of guids and no sub-process goes by a guid in use,
the main graph conforms to the vocabulary. -/
theorem conforms_run [StepIds] (settings : Settings) (ops : List Operation) (R : String → Role)
    (hroles : ∀ o ∈ ops.flatMap Operation.errands, o.Respects R)
    (hfresh : ((Service.initial settings).run ops).graphs.main.FreshSteps
      (· ∈ ops.flatMap Operation.guids)) :
    ((Service.initial settings).run ops).graphs.main.Conforms R
      (· ∈ ops.flatMap Operation.guids) := by
  have hinitial : (Service.initial settings).workspace = Workspace.empty := rfl
  obtain ⟨tasks, hrun, hsub⟩ := Service.exists_tasks_run ops (s := Service.initial settings)
    (Graph.identified_empty _) (Graph.wellFormed_empty _)
  rw [hinitial] at hrun
  have htasks : ∀ task ∈ tasks, (∀ n ∈ task.guids, n ∈ ops.flatMap Operation.guids)
      ∧ task.errand.Respects R := by
    intro task htask
    have herrand := hsub.subset (List.mem_map_of_mem htask)
    refine ⟨fun n hn => ?_, hroles _ herrand⟩
    obtain ⟨op, hop, ho⟩ := List.mem_flatMap.1 herrand
    exact List.mem_flatMap.2 ⟨op, hop, op.guids_errands _ ho n (by rwa [Task.guids_errand])⟩
  have hmain : (Workspace.empty.attemptAll tasks).main
      = ((Service.initial settings).run ops).graphs.main := congrArg Workspace.main hrun
  rw [← hmain] at hfresh ⊢
  exact (Workspace.proper_empty.attemptAll tasks htasks hfresh).proper.conforms hfresh

/-- A run with a schema, a column and a table that feed each other, and two terms. -/
def sampleVocabulary : List Operation :=
  [.ingestAll [
    .newEntity { guid := "s", type := "RelationalDBSchemaType" },
    .newEntity { guid := "t", type := "RelationalTable" },
    .newEntity { guid := "a", type := "RelationalColumn" },
    .newEntity { guid := "g", type := "GlossaryTerm" },
    .newEntity { guid := "h", type := "GlossaryTerm" },
    .newRelationship { guid := "r1", type := "AttributeForSchema", endOne := "t", endTwo := "a" },
    .newRelationship { guid := "r2", type := "SchemaContent", endOne := "s", endTwo := "t" },
    .newRelationship { guid := "r3", type := "SemanticAssignment", endOne := "g", endTwo := "a" },
    .newRelationship { guid := "r4", type := "Synonym", endOne := "g", endTwo := "h" },
    .newEntity { guid := "u", type := "DataFile" },
    .newRelationship { guid := "r5", type := "NestedFile", endOne := "t", endTwo := "u" },
    .processContext { guid := "p", type := "Process" } [⟨"a", "u"⟩, ⟨"u", "a"⟩]],
    .consolidate ⟨"a", "a", ⟨"p", none⟩⟩, .consolidateByGuid "a" "u" "p"]

def sampleRole : String → Role
  | "a" => .column
  | "t" | "u" => .table
  | "g" | "h" => .term
  | "p" => .process
  | _ => .other

theorem conforms_run_sampleVocabulary :
    let g := ((Service.initial {}).run sampleVocabulary).graphs.main
    (∀ o ∈ sampleVocabulary.flatMap Operation.errands, o.Respects sampleRole)
    ∧ g.FreshSteps (· ∈ sampleVocabulary.flatMap Operation.guids)
    ∧ (∀ l ∈ EdgeLabel.all, l ≠ .condensed → ∃ e ∈ allEdges g, e.label = l.name)
    ∧ g.Conforms sampleRole (· ∈ sampleVocabulary.flatMap Operation.guids) := by
  have hroles : ∀ o ∈ sampleVocabulary.flatMap Operation.errands, o.Respects sampleRole := by
    decide +kernel
  have hfresh : ((Service.initial {}).run sampleVocabulary).graphs.main.FreshSteps
      (· ∈ sampleVocabulary.flatMap Operation.guids) := by decide +kernel
  have hedges : ∀ l ∈ EdgeLabel.all, l ≠ .condensed →
      ∃ e ∈ allEdges ((Service.initial {}).run sampleVocabulary).graphs.main, e.label = l.name := by
    decide +kernel
  exact ⟨hroles, hfresh, hedges, conforms_run {} sampleVocabulary sampleRole hroles hfresh⟩

end Lineage
