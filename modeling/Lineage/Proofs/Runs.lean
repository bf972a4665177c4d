import Lineage.Proofs.Folding
import Lineage.Proofs.LastWriter
import Lineage.Service

/-!
# Runs of the service

Whatever is asked of the service, its two graphs move by steps of two kinds: the buffer graph takes
an event, or a fragment is folded into the main graph (`Workspace.Step`). So the graphs of every
service that a run leads to are regular (`regular_run`): the buffer graph is identified, and the
main graph is made by writes that name no other guids than those used in the run.
-/

namespace Lineage

open Std Consolidation

/-! ## Guids in use -/

def Event.guids : Event → List String
  | newEntity e | updatedEntity e => [e.guid]
  -- the ends of a relationship are looked up and never added
  | newRelationship _ => []
  | processContext p ms => p.guid :: ms.flatMap fun m => [m.input, m.output]

def Fragment.guids (f : Fragment) : List String := [f.columnIn, f.columnOut, f.process.guid]

def Item.guids : Item → List String
  | .node _ n _ => [n]
  | .process p => [p.guid]
  | .edge _ m n => [m, n]
  | .step f => f.guids

/-- An item names guids in use alone, and is of a shape that consolidation writes. A vertex that
stands for an instance keeps the guid of the instance. -/
structure Item.Within (U : String → Prop) (i : Item) : Prop where
  guids : ∀ n ∈ i.guids, U n
  shape : i.IsBeside ∨ (∃ p, i = .process p) ∨ ∃ f, i = .step f
  identity : ∀ {l n ps}, i = .node l n ps → ps[Key.guid]? = some n

section Identity

variable {buffer : Graph} {depths : SearchDepths}

theorem getElem?_insert_nodeId_guid {ps : Properties} (n : String) :
    (ps.insert Key.nodeId n)[Key.guid]? = ps[Key.guid]? :=
  Properties.getElem?_insert_of_ne (by decide) n

theorem TermItem.identity {term : Vertex} {n : String} (hn : term.guid? = some n) {l : NodeLabel}
    {m : String} {ps : Properties} (hi : TermItem buffer term n (.node l m ps)) :
    ps[Key.guid]? = some m := by
  cases hi with
  | self => exact (getElem?_insert_nodeId_guid _).trans hn
  | synonym _ hm _ => exact (getElem?_insert_nodeId_guid _).trans hm

theorem AttachItem.identity {inst : Vertex} {n : String} {l : NodeLabel} {m : String}
    {ps : Properties} (hi : AttachItem buffer inst n (.node l m ps)) : ps[Key.guid]? = some m := by
  cases hi with
  | term _ hm _ hi => exact hi.identity hm

theorem AssetItem.identity (hb : buffer.WellFormed) {inst : Vertex}
    (hmem : inst ∈ allVertices buffer) {n : String} (hn : inst.guid? = some n) {l : NodeLabel}
    {m : String} {ps : Properties} (hi : AssetItem depths buffer inst n (.node l m ps)) :
    ps[Key.guid]? = some m := by
  generalize hl : (Item.node l m ps) = i at hi
  cases hi with
  | self hps =>
    obtain ⟨rfl, rfl, rfl⟩ := Item.node.inj hl
    obtain ⟨ps', hps', -, hguid⟩ := exists_assetProperties depths hb hmem m
    rw [hps, Except.ok.injEq] at hps'
    rw [hps', hguid, hn]
  | attached hi => exact (hl ▸ hi).identity

theorem TableItem.identity {table : Vertex} {n : String} (hn : table.guid? = some n) {l : NodeLabel}
    {m : String} {ps : Properties} (hi : TableItem depths buffer table n (.node l m ps)) :
    ps[Key.guid]? = some m := by
  cases hi with
  | self _ =>
    rw [getElem?_nameAfter (by decide)]
    exact (getElem?_insert_nodeId_guid _).trans hn

theorem LinkItem.identity {role : TableRole} {p c n : String} {x : Vertex} {l : NodeLabel}
    {m : String} {ps : Properties} (hi : LinkItem buffer role p c n x (.node l m ps)) :
    ps[Key.guid]? = some m := by
  generalize hl : (Item.node l m ps) = i at hi
  cases hi with
  | flow => cases role <;> cases hl
  | within => cases hl
  | attached _ _ hi => exact (hl ▸ hi).identity

end Identity

section Items

variable {U : String → Prop} {buffer : Graph} {depths : SearchDepths}
  (hU : ∀ v ∈ allVertices buffer, ∀ n, v.guid? = some n → U n)

include hU

theorem TermItem.guids {term : Vertex} {n : String} {i : Item} (hn : U n)
    (hi : TermItem buffer term n i) : ∀ m ∈ i.guids, U m := by
  cases hi with
  | self => simpa [Item.guids] using hn
  | synonym hs hm _ => simpa [Item.guids] using hU _ hs _ hm
  | link hs hm _ => simpa [Item.guids] using ⟨hn, hU _ hs _ hm⟩

theorem AttachItem.guids {inst : Vertex} {n : String} {i : Item} (hn : U n)
    (hi : AttachItem buffer inst n i) : ∀ m ∈ i.guids, U m := by
  cases hi with
  | term ht hm _ hi => exact hi.guids hU (hU _ ht _ hm)
  | link ht hm _ => simpa [Item.guids] using ⟨hn, hU _ ht _ hm⟩

theorem FragmentItem.within (hb : buffer.WellFormed) {f : Fragment} {x : TableRole → Vertex}
    {i : Item} (hf : ∀ n ∈ f.guids, U n) (hi : FragmentItem depths buffer f x i) : i.Within U := by
  simp only [Fragment.guids, List.mem_cons, List.not_mem_nil, or_false, forall_eq_or_imp,
    forall_eq] at hf
  have hcolumn : ∀ role, U (f.column role) := fun role => by
    cases role
    · exact hf.1
    · exact hf.2.1
  have htable : ∀ {column table : Vertex} {n}, column ∈ allVertices buffer →
      Enclosed depths buffer column table n → U n := by
    intro column table n hcol henc
    obtain ⟨found, hfound, hmem⟩ :=
      hb.exists_nearestContainer hcol TypeName.isTableLike depths.table
    exact hU _ (hmem table (Except.ok.inj (hfound.symm.trans henc.1))).1 _ henc.2
  cases hi with
  | core hi =>
    cases hi with
    | asset hinst hi =>
      obtain ⟨hmem, hn⟩ := hb.mem_of_vertexWith? hinst
      refine ⟨?_, .inl hi.isBeside, fun heq => (heq ▸ hi).identity hb hmem hn⟩
      cases hi with
      | self _ => simpa [Item.guids] using hcolumn _
      | attached hi => exact hi.guids hU (hcolumn _)
    | step =>
      exact ⟨by simpa [Item.guids, Fragment.guids] using hf, .inr (.inr ⟨f, rfl⟩), by simp⟩
    | process => exact ⟨by simpa [Item.guids] using hf.2.2, .inr (.inl ⟨_, rfl⟩), by simp⟩
    | table hinst henc hi =>
      refine ⟨?_, .inl hi.isBeside, fun heq => (heq ▸ hi).identity henc.2⟩
      have := htable (hb.mem_of_vertexWith? hinst).1 henc
      cases hi
      simpa [Item.guids] using this
  | link hinst henc hi =>
    refine ⟨?_, .inl hi.isBeside, fun heq => (heq ▸ hi).identity⟩
    have hn := htable (hb.mem_of_vertexWith? hinst).1 henc
    cases hi with
    | @flow =>
      rename_i role _ _ _
      cases role
      · simpa [Item.guids, flowItem] using ⟨hn, hf.2.2⟩
      · simpa [Item.guids, flowItem] using ⟨hf.2.2, hn⟩
    | within => simpa [Item.guids] using ⟨hcolumn _, hn⟩
    | attached _ _ hi => exact hi.guids hU hn

end Items

theorem Event.guids_fragments (name : Option String) (e : Event) :
    ∀ f ∈ e.fragments name, ∀ n ∈ f.guids, n ∈ e.guids := by
  cases e with
  | processContext p ms =>
    intro f hf n hn
    simp only [fragments, List.mem_map] at hf
    obtain ⟨m, hm, rfl⟩ := hf
    simp only [Fragment.guids, List.mem_cons, List.not_mem_nil, or_false] at hn
    simp only [guids, List.mem_cons, List.mem_flatMap, List.not_mem_nil, or_false]
    rcases hn with rfl | rfl | rfl
    · exact .inr ⟨m, hm, .inl rfl⟩
    · exact .inr ⟨m, hm, .inr rfl⟩
    · exact .inl rfl
  | newEntity => simp [fragments]
  | updatedEntity => simp [fragments]
  | newRelationship => simp [fragments]

/-! ## Steps -/

namespace Workspace

inductive Step [StepIds] (depths : SearchDepths) (U : String → Prop) (w : Workspace) :
    Workspace → Prop
  | record {e : Event} {fs : List Fragment} {buffer : Graph} (guids : ∀ n ∈ e.guids, U n)
      (apply_eq : Buffer.apply w.buffer e = .ok (fs, buffer)) : Step depths U w { w with buffer }
  | consolidate {f : Fragment} {outcome : Outcome} {main : Graph} (guids : ∀ n ∈ f.guids, U n)
      (consolidate_eq : Consolidation.consolidate depths w.buffer w.main f = .ok (outcome, main)) :
      Step depths U w { w with main }

def Moves [StepIds] (depths : SearchDepths) (U : String → Prop) : Workspace → Workspace → Prop :=
  Relation.ReflTransGen (Step depths U)

variable {depths : SearchDepths} {U : String → Prop}

theorem moves_consolidateNoting [StepIds] (depths : SearchDepths) (w : Workspace) (s : Summary)
    {f : Fragment} (hf : ∀ n ∈ f.guids, U n) :
    Moves depths U w (consolidateNoting depths w s f).2 := by
  unfold consolidateNoting
  split
  · next main heq => exact Relation.ReflTransGen.single (.consolidate hf heq)
  · next main heq => exact Relation.ReflTransGen.single (.consolidate hf heq)
  · exact Relation.ReflTransGen.refl

theorem moves_consolidateAll [StepIds] (depths : SearchDepths) :
    ∀ (fs : List Fragment) (s : Summary) (w : Workspace),
    (∀ f ∈ fs, ∀ n ∈ f.guids, U n) → Moves depths U w (consolidateAll depths fs s w).2
  | [], _, _, _ => Relation.ReflTransGen.refl
  | f :: fs, s, w, h => by
    have hfirst := moves_consolidateNoting depths w s (h f List.mem_cons_self)
    exact hfirst.trans
      (moves_consolidateAll depths fs _ _ fun f hf => h f (List.mem_cons_of_mem _ hf))

/-- The buffer graph is identified and holds guids in use only; the main graph is written from a
start with such guids. -/
structure Regular [StepIds] (U : String → Prop) (start : Graph) (w : Workspace) : Prop where
  buffer : w.buffer.Identified
  guids : ∀ v ∈ allVertices w.buffer, ∀ n, v.guid? = some n → U n
  main : w.main.WellFormed
  writes : Writes (Item.Within U) start w.main

variable {start : Graph} {w w' : Workspace}

theorem guids_of_apply {buffer buffer' : Graph} {fs : List Fragment} {e : Event}
    (hb : buffer.Identified) (hguids : ∀ v ∈ allVertices buffer, ∀ n, v.guid? = some n → U n)
    (he : ∀ n ∈ e.guids, U n) (happly : Buffer.apply buffer e = .ok (fs, buffer')) :
    ∀ v ∈ allVertices buffer', ∀ n, v.guid? = some n → U n := by
  rcases hentity : e.entity? with _ | entity
  · cases e with
    | newRelationship r =>
      rw [apply_newRelationship hb.toWellFormed] at happly
      split at happly
      · cases happly
      · cases happly
      · cases happly
        intro v hv
        refine hguids v ?_
        unfold Graph.connect at hv
        split_ifs at hv <;> exact hv
    | newEntity => cases hentity
    | updatedEntity => cases hentity
    | processContext => cases hentity
  · obtain ⟨name, heq⟩ := apply_entity hb.toWellFormed hentity
    obtain ⟨rfl, rfl⟩ := Prod.mk.inj (Except.ok.inj (happly.symm.trans heq))
    have hU : U entity.guid := he _ (by cases e <;> cases hentity <;> simp [Event.guids])
    intro v hv n hn
    unfold Graph.upsert at hv
    split at hv
    · next w hw =>
      rcases hb.mem_insertVertex.1 hv with rfl | ⟨hv, -⟩
      · rw [Graph.Identified.guid?_merge] at hn
        exact hguids w (hb.mem_of_vertexWith? hw).1 n hn
      · exact hguids v hv n hn
    · rw [hb.allVertices_addVertex] at hv
      rcases List.mem_append.1 hv with hv | hv
      · exact hguids v hv n hn
      · rw [List.mem_singleton.1 hv] at hn
        have : some entity.guid = some n := ExtTreeMap.getElem?_insert_self.symm.trans hn
        exact Option.some.inj this ▸ hU

variable [StepIds]

theorem Step.regular (h : w.Regular U start) (hs : Step depths U w w') : w'.Regular U start := by
  cases hs with
  | @record e fs buffer' he happly =>
    rcases apply_cases h.buffer e with ⟨err, heq⟩ | ⟨name, g, heq, hg, -⟩
    · rw [heq] at happly
      cases happly
    · obtain ⟨-, rfl⟩ := Prod.mk.inj (Except.ok.inj (heq.symm.trans happly))
      exact ⟨hg, guids_of_apply h.buffer h.guids he happly, h.main, h.writes⟩
  | @consolidate f outcome main hf hc =>
    have hcases := consolidate_cases depths h.buffer.toWellFormed h.main f
    rw [hc] at hcases
    cases hcases with
    | alreadyPresent _ _ => exact h
    | applied _ _ hwrites _ _ _ _ =>
      refine ⟨h.buffer, h.guids, hwrites.wellFormed h.main, h.writes.trans ?_⟩
      exact hwrites.mono fun i hi => hi.within h.guids h.buffer.toWellFormed hf

theorem Moves.regular (h : w.Regular U start) (hm : Moves depths U w w') : w'.Regular U start := by
  induction hm with
  | refl => exact h
  | tail _ hs ih => exact hs.regular ih

/-- An event that is let in is recorded, and then its fragments are consolidated. -/
theorem moves_ingest (h : w.Regular U start) {e : Event} (he : ∀ n ∈ e.guids, U n) {s : Summary}
    (heq : ingest depths w e = .ok (s, w')) : Moves depths U w w' := by
  unfold ingest at heq
  rcases apply_cases h.buffer e with ⟨err, happly⟩ | ⟨name, g, happly, -⟩
  · rw [happly] at heq
    cases heq
  · rw [bind_of_ok happly] at heq
    have hw : w' = _ := (congrArg Prod.snd (Except.ok.inj heq)).symm
    rw [hw]
    refine Relation.ReflTransGen.head (.record he happly) (moves_consolidateAll _ _ _ _ ?_)
    exact fun f hf n hn => he n (e.guids_fragments name f hf n hn)

theorem moves_ingestFrom : ∀ (es : List Event) (index : Nat) (s : Summary) {w : Workspace},
    w.Regular U start → (∀ e ∈ es, ∀ n ∈ e.guids, U n) →
      Moves depths U w (ingestFrom depths index es s w).2
  | [], _, _, _, _, _ => Relation.ReflTransGen.refl
  | e :: es, index, s, w, h, hes => by
    have hrest := fun e he => hes e (List.mem_cons_of_mem _ he)
    unfold ingestFrom
    split
    · next s' w' heq =>
      have hfirst := moves_ingest h (hes e List.mem_cons_self) heq
      exact hfirst.trans (moves_ingestFrom es _ _ (hfirst.regular h) hrest)
    · exact moves_ingestFrom es _ _ h hrest

end Workspace

/-! ## Operations -/

/-- What can be asked of the service that changes its graphs. -/
inductive Operation where
  | ingest (e : Event)
  | ingestAll (es : List Event)
  | consolidate (f : Fragment)
  | consolidateByGuid (columnIn columnOut process : String)

def Operation.guids : Operation → List String
  | ingest e => e.guids
  | ingestAll es => es.flatMap Event.guids
  | consolidate f => f.guids
  | consolidateByGuid columnIn columnOut process => [columnIn, columnOut, process]

/-- A batch that writes an entity and a relationship again and maps one column in two contexts of a
process. -/
def sampleBatch : List Event :=
  [.newEntity { guid := "t", type := "RelationalTable" },
    .newEntity { guid := "a", type := "RelationalColumn"
                 properties := (∅ : Properties).insert "displayName" "old" },
    .newEntity { guid := "b", type := "RelationalColumn" },
    .updatedEntity { guid := "a", type := "RelationalColumn"
                     properties := (∅ : Properties).insert "displayName" "new" },
    .newRelationship { guid := "r", type := "AttributeForSchema", endOne := "t", endTwo := "a" },
    .newRelationship { guid := "q", type := "AttributeForSchema", endOne := "t", endTwo := "b" },
    .newRelationship { guid := "r", type := "AttributeForSchema", endOne := "t", endTwo := "a" },
    .processContext { guid := "p", type := "Process" } [⟨"a", "b"⟩],
    .processContext { guid := "p", type := "Process" } [⟨"a", "b"⟩, ⟨"a", "a"⟩]]

/-- Operations that ingest a batch, fail, and ask again for what is there. -/
def sampleRun : List Operation :=
  [.ingestAll sampleBatch, .consolidate ⟨"t", "a", ⟨"p", none⟩⟩,
    .consolidate ⟨"a", "z", ⟨"p", none⟩⟩, .consolidateByGuid "b" "b" "a",
    .consolidateByGuid "a" "b" "p"]

variable [StepIds]

namespace Service

/-- A service on empty graphs. -/
def initial (settings : Settings) : Service := ⟨.empty, settings⟩

/-- What an operation leaves behind: a failed one changes nothing. -/
def settle {α : Type} (s : Service) : Except LineageError (α × Service) → Service
  | .ok (_, s') => s'
  | .error _ => s

def perform (s : Service) : Operation → Service
  | .ingest e => s.settle (s.ingest e)
  | .ingestAll es => (s.ingestAll es).2
  | .consolidate f => s.settle (s.consolidate f)
  | .consolidateByGuid columnIn columnOut process =>
    s.settle (s.consolidateByGuid columnIn columnOut process)

def run (s : Service) (ops : List Operation) : Service := ops.foldl perform s

variable {U : String → Prop} {start : Graph} {s : Service}

theorem moves_consolidate {f : Fragment} (hf : ∀ n ∈ f.guids, U n) :
    s.workspace.Moves s.settings.depths U (s.settle (s.consolidate f)).workspace
      ∧ (s.settle (s.consolidate f)).settings = s.settings := by
  unfold consolidate
  rcases heq : Consolidation.consolidate s.settings.depths s.graphs.buffer s.graphs.main f with
    _ | ⟨outcome, main⟩
  · exact ⟨Relation.ReflTransGen.refl, rfl⟩
  · exact ⟨Relation.ReflTransGen.single (.consolidate hf heq), rfl⟩

/-- Consolidation by guid is consolidation of a fragment whose process has that guid. -/
theorem consolidateByGuid_cases (h : s.graphs.buffer.Coherent) (a b p : String) :
    (∃ err, s.consolidateByGuid a b p = .error err)
      ∨ ∃ name, s.consolidateByGuid a b p = s.consolidate ⟨a, b, ⟨p, name⟩⟩ := by
  rcases hv : vertexWith? s.graphs.buffer Key.guid p with _ | v
  · refine .inl ⟨.notFound .consolidate p, ?_⟩
    unfold consolidateByGuid Consolidation.consolidateByGuid processRef
    rw [bufferVertex_of_none hv]
    rfl
  · have hguid : v.guid? = some p := (h.mem_of_vertexWith? hv).2
    refine .inr ⟨v.displayName?, ?_⟩
    unfold consolidateByGuid Consolidation.consolidateByGuid processRef
    rw [bufferVertex_of_some hv]
    have href : ProcessRef.ofVertex? v = some ⟨p, v.displayName?⟩ := by
      rw [ProcessRef.ofVertex?, hguid]
      rfl
    simp only [bind, Except.bind, href]
    rfl

theorem moves_perform (h : s.workspace.Regular U start) {op : Operation}
    (hop : ∀ n ∈ op.guids, U n) :
    s.workspace.Moves s.settings.depths U (s.perform op).workspace
      ∧ (s.perform op).settings = s.settings := by
  cases op with
  | ingest e =>
    simp only [perform, ingest]
    rcases heq : s.workspace.ingest s.settings.depths e with _ | ⟨summary, w⟩
    · exact ⟨Relation.ReflTransGen.refl, rfl⟩
    · exact ⟨Workspace.moves_ingest h hop heq, rfl⟩
  | ingestAll es =>
    refine ⟨Workspace.moves_ingestFrom es 0 {} h fun e he n hn => hop n ?_, rfl⟩
    exact List.mem_flatMap.2 ⟨e, he, hn⟩
  | consolidate f => exact moves_consolidate hop
  | consolidateByGuid a b p =>
    simp only [perform]
    rcases consolidateByGuid_cases (s := s) h.buffer.toCoherent a b p with ⟨err, heq⟩ | ⟨name, heq⟩
    · rw [heq]
      exact ⟨Relation.ReflTransGen.refl, rfl⟩
    · rw [heq]
      exact moves_consolidate hop

theorem regular_initial (settings : Settings) :
    (initial settings).workspace.Regular U (.empty GraphName.main.name) where
  buffer := Graph.identified_empty _
  guids v hv := by
    have hv : v ∈ allVertices (Graph.empty GraphName.buffer.name) := hv
    simp at hv
  main := Graph.wellFormed_empty _
  writes := .refl _

theorem regular_run : ∀ (ops : List Operation) {s : Service}, s.workspace.Regular U start →
    (∀ op ∈ ops, ∀ n ∈ op.guids, U n) → (s.run ops).workspace.Regular U start
  | [], _, h, _ => h
  | op :: ops, s, h, hops => by
    have hop := (moves_perform h (hops op List.mem_cons_self)).1.regular h
    exact regular_run ops hop fun o ho => hops o (List.mem_cons_of_mem _ ho)

end Service

end Lineage
