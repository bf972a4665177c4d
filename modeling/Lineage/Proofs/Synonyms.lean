import Lineage.Proofs.Calls
import Lineage.Proofs.Origins
import Lineage.Proofs.Tasks

/-!
# Synonyms of assigned terms

A term comes into the consolidated graph because an asset is assigned to it, or as a synonym of such
a term. Only the first brings its own synonyms along, so two synonyms are linked exactly when an
asset is assigned to one of them (`synonymEdges_length_eq_one_iff`). What an assigned term is bound
to is settled in one stage, after which the term is never looked at again (`Graph.Mirrors`); this
holds of a whole run where the buffer graph has all relationships before the first fragment comes.
-/

namespace Lineage

open Std Consolidation

namespace Graph

/-! ## Terms and their links -/

/-- Instances of two guids are related as synonyms. -/
def Synonymous (buffer : Graph) (n m : String) : Prop :=
  ∃ b ∈ allVertices buffer, ∃ s ∈ allVertices buffer, b.guid? = some n ∧ s.guid? = some m
    ∧ buffer.Related TypeName.synonym b s

instance {buffer : Graph} {n m : String} : Decidable (buffer.Synonymous n m) :=
  inferInstanceAs (Decidable (∃ b ∈ allVertices buffer, ∃ s ∈ allVertices buffer, _ ∧ _ ∧ _))

/-- An asset is linked to a term. -/
def Assigned (g : Graph) (term : VertexId) : Prop :=
  ∃ e ∈ allEdges g, e.label = EdgeLabel.semantic.name ∧ e.target = term

instance {g : Graph} {term : VertexId} : Decidable (g.Assigned term) :=
  inferInstanceAs (Decidable (∃ e ∈ allEdges g, _))

/-- Two terms are linked, one way or the other. -/
def Bound (g : Graph) (u v : VertexId) : Prop :=
  g.Joined .synonym u v ∨ g.Joined .synonym v u

/-- The edges that link two terms. -/
def synonymEdges (g : Graph) (u v : VertexId) : List Edge :=
  (allEdges g).filter fun e => e.label == EdgeLabel.synonym.name
    && (e.source == u && e.target == v || e.source == v && e.target == u)

/-- A term is bound to the terms that its synonyms are looked up to. -/
def MirrorsAt (g : Graph) (S : String → String → Prop) (n : String) (u : VertexId) : Prop :=
  ∀ m, S n m → ∃ v, vertexWith? g Key.nodeId m = some v ∧ g.Bound u v.id

/-- Terms that assets are assigned to are bound to all their synonyms, and edges to synonyms leave
such terms alone. -/
structure Mirrors (g : Graph) (S : String → String → Prop) : Prop where
  bound : ∀ n u, vertexWith? g Key.nodeId n = some u → g.Assigned u.id → g.MirrorsAt S n u.id
  assigned : ∀ e ∈ allEdges g, e.label = EdgeLabel.synonym.name → g.Assigned e.source

variable {g g' : Graph} {S : String → String → Prop} {u v : VertexId}

theorem Synonymous.symm {buffer : Graph} {n m : String} (h : buffer.Synonymous n m) :
    buffer.Synonymous m n := by
  obtain ⟨b, hb, s, hs, hn, hm, e, he, hl, hends⟩ := h
  exact ⟨s, hs, b, hb, hm, hn, e, he, hl, hends.symm⟩

theorem mem_synonymEdges {e : Edge} : e ∈ g.synonymEdges u v
    ↔ e ∈ allEdges g ∧ e.label = EdgeLabel.synonym.name
      ∧ (e.source = u ∧ e.target = v ∨ e.source = v ∧ e.target = u) := by
  simp [synonymEdges]

theorem Bound.exists_mem (h : g.Bound u v) : ∃ e, e ∈ g.synonymEdges u v := by
  rcases h with ⟨e, he, hs, hl, ht⟩ | ⟨e, he, hs, hl, ht⟩
  · exact ⟨e, mem_synonymEdges.2 ⟨he, hl, .inl ⟨hs, ht⟩⟩⟩
  · exact ⟨e, mem_synonymEdges.2 ⟨he, hl, .inr ⟨hs, ht⟩⟩⟩

theorem Bound.symm (h : g.Bound u v) : g.Bound v u := Or.symm h

theorem Grows.bound (h : g.Grows g') : g.Bound u v → g'.Bound u v :=
  Or.imp h.joined h.joined

theorem Grows.assigned (h : g.Grows g') : g.Assigned u → g'.Assigned u
  | ⟨e, he, hl, ht⟩ => ⟨e, h.mem_edges he, hl, ht⟩

theorem Made.length_synonymEdges_le_one [StepIds] {P : Item → Prop} (h : g.Made P)
    (hg : g.Coherent) : (g.synonymEdges u v).length ≤ 1 := by
  have hascending := hg.edges_ascending.filter fun e => e.label == EdgeLabel.synonym.name
    && (e.source == u && e.target == v || e.source == v && e.target == u)
  change (g.synonymEdges u v).Pairwise _ at hascending
  have hmem := fun {e} (he : e ∈ g.synonymEdges u v) => mem_synonymEdges.1 he
  rcases hlist : g.synonymEdges u v with _ | ⟨d, _ | ⟨e, es⟩⟩
  · simp
  · simp
  · rw [hlist] at hascending hmem
    obtain ⟨hd, hdl, hdends⟩ := hmem (e := d) (by simp)
    obtain ⟨he, hel, heends⟩ := hmem (e := e) (by simp)
    have hsame : SameEdge d e := by
      refine ⟨hdl.trans hel.symm, ?_⟩
      rcases hdends with ⟨hds, hdt⟩ | ⟨hds, hdt⟩ <;> rcases heends with ⟨hes, het⟩ | ⟨hes, het⟩
      · exact .inl ⟨hds.trans hes.symm, hdt.trans het.symm⟩
      · exact .inr ⟨hdl, hds.trans het.symm, hdt.trans hes.symm⟩
      · exact .inr ⟨hdl, hds.trans het.symm, hdt.trans hes.symm⟩
      · exact .inl ⟨hds.trans hes.symm, hdt.trans het.symm⟩
    have hlt := (List.pairwise_cons.1 hascending).1 e List.mem_cons_self
    rw [h.edge_unique d hd e he hsame] at hlt
    exact absurd hlt (Nat.lt_irrefl _)

namespace Mirrors

theorem mono {T : String → String → Prop} (h : g.Mirrors S) (hT : ∀ n m, T n m → S n m) :
    g.Mirrors T where
  bound n u hu ha m hm := h.bound n u hu ha m (hT n m hm)
  assigned := h.assigned

theorem empty (name : String) : (Graph.empty name).Mirrors S where
  bound n u _ ha := by
    obtain ⟨e, he, -⟩ := ha
    simp at he
  assigned e he := by simp at he

/-- Links stay mirrored where a new assignment comes with all the links of its term, and a new link
leaves an assigned term. -/
theorem grows (h : g.Mirrors S) (hg : g.WellFormed) (hg' : g'.WellFormed) (hgrows : g.Grows g')
    (hnew : ∀ e ∈ allEdges g', e ∈ allEdges g
      ∨ (e.label = EdgeLabel.synonym.name → g'.Assigned e.source)
        ∧ (e.label = EdgeLabel.semantic.name → ∀ n u, vertexWith? g' Key.nodeId n = some u →
          u.id = e.target → g'.MirrorsAt S n u.id)) : g'.Mirrors S where
  bound n u hu := by
    rintro ⟨e, he, hl, ht⟩
    rcases hnew e he with he | ⟨-, hterm⟩
    · obtain ⟨w, hw, hid⟩ := hg.exists_target he
      obtain rfl := hg'.eq_of_vertex_id (hgrows.mem_vertices hw) (hg'.mem_of_vertexWith? hu).1
        (hid.trans ht)
      have hfound := hgrows.vertexWith?_of_mem hg.toCoherent hg'.toCoherent hw hu
      intro m hm
      obtain ⟨v, hv, hbound⟩ := h.bound n w hfound ⟨e, he, hl, ht⟩ m hm
      exact ⟨v, hgrows.vertexWith? hg.toCoherent hg'.toCoherent hv, hgrows.bound hbound⟩
    · exact hterm hl n u hu ht.symm
  assigned e he hl := by
    rcases hnew e he with he | ⟨hlink, -⟩
    · exact hgrows.assigned (h.assigned e he hl)
    · exact hlink hl

end Mirrors

end Graph

/-! ## One stage -/

/-- A transaction has gone on, and its new edges are of a kind. -/
structure Transaction.Adds (Q : Edge → Prop) (t t' : Transaction) : Prop where
  wellFormed : t'.WellFormed
  grows : t.commit.Grows t'.commit
  edges : ∀ e ∈ allEdges t'.commit, e ∈ allEdges t.commit ∨ Q e

namespace Transaction

variable {t t' : Transaction} {Q R : Edge → Prop}

namespace Adds

theorem refl (h : t.WellFormed) : Adds Q t t := ⟨h, .refl _, fun _ => .inl⟩

theorem trans {t'' : Transaction} (h : Adds Q t t') (h' : Adds Q t' t'') : Adds Q t t'' where
  wellFormed := h'.wellFormed
  grows := h.grows.trans h'.grows
  edges e he := (h'.edges e he).elim (h.edges e) .inr

theorem mono (h : Adds Q t t') (hR : ∀ e, Q e → R e) : Adds R t t' :=
  ⟨h.wellFormed, h.grows, fun e he => (h.edges e he).imp_right (hR e)⟩

theorem vertexWith? (h : Adds Q t t') (ht : t.WellFormed) {key value : String} {v : Vertex}
    (hv : Lineage.vertexWith? t.commit key value = some v) :
    Lineage.vertexWith? t'.commit key value = some v :=
  h.grows.vertexWith? ht.coherent_commit h.wellFormed.coherent_commit hv

end Adds

theorem WellFormed.adds_addVertex (h : t.WellFormed) (label : String) (ps : Properties) :
    Adds (fun _ => False) t (t.addVertex label ps).2 := by
  have hcommit := h.commit_addVertex label ps
  refine ⟨h.addVertex label ps, ?_, fun e he => .inl ?_⟩
  · exact hcommit ▸ .addVertex h.coherent_commit label ps
  · rwa [hcommit] at he

theorem WellFormed.mem_of_requireVertex (h : t.WellFormed) {id : VertexId} {v : Vertex}
    (heq : requireVertex t id = .ok v) : v ∈ allVertices t.commit ∧ v.id = id :=
  h.exists_mem_of_vertex?_commit ((h.vertex?_commit id).trans (vertex?_of_requireVertex heq))

theorem WellFormed.adds_addEdge (h : t.WellFormed) {label : EdgeLabel} {u v : VertexId}
    {id : EdgeId} (heq : t.addEdge label.name u v ∅ = .ok (id, t')) :
    Adds (fun e => e.label = label.name ∧ e.source = u ∧ e.target = v) t t'
      ∧ t'.commit.Joined label u v := by
  obtain ⟨x, hx, hrest⟩ := exists_of_bind_ok heq
  obtain ⟨y, hy, -⟩ := exists_of_bind_ok hrest
  obtain ⟨hxmem, rfl⟩ := h.mem_of_requireVertex hx
  obtain ⟨hymem, rfl⟩ := h.mem_of_requireVertex hy
  obtain ⟨t₁, h₁, hwf, -, hcommit⟩ := h.addEdge hxmem hymem label.name ∅
  obtain ⟨-, rfl⟩ := Prod.mk.inj (Except.ok.inj (heq.symm.trans h₁))
  have hedges := h.coherent_commit.allEdges_addEdge label.name x.id y.id ∅
  refine ⟨⟨hwf, ?_, fun e he => ?_⟩, ?_⟩
  · exact hcommit ▸ .addEdge h.coherent_commit _ _ _ _
  · rw [hcommit, hedges] at he
    refine (List.mem_append.1 he).imp_right fun he => ?_
    rw [List.mem_singleton.1 he]
    exact ⟨rfl, rfl, rfl⟩
  · rw [hcommit, Graph.Joined, hedges]
    exact ⟨_, List.mem_append_right _ List.mem_cons_self, rfl, rfl, rfl⟩

end Transaction

open Transaction

section Stages

variable {t t' : Transaction} {buffer : Graph} {x : VertexId}

theorem adds_ensureTerm (h : t.WellFormed) {term : Vertex} {n : String}
    (hn : term.guid? = some n) :
    Adds (fun _ => False) t (ensureTerm term t).2
      ∧ ∃ v, vertexWith? (ensureTerm term t).2.commit Key.nodeId n = some v
        ∧ (ensureTerm term t).1 = v.id := by
  unfold ensureTerm
  simp only [hn, Option.getD_some, ← h.vertexWith?_commit]
  split
  · next v hv => exact ⟨.refl h, v, hv, rfl⟩
  · next hnone =>
    let ps := term.properties.insert Key.nodeId n
    refine ⟨h.adds_addVertex _ _, ⟨t.commit.nextVertex, NodeLabel.glossaryTerm.name, ps⟩, ?_,
      h.addVertex_fst _ _⟩
    rw [h.commit_addVertex]
    exact h.coherent_commit.vertexWith?_addVertex hnone ExtTreeMap.getElem?_insert_self

theorem adds_ensureSynonym (h : t.WellFormed) {y : VertexId}
    (heq : ensureSynonym x y t = .ok t') :
    Adds (fun e => e.label = EdgeLabel.synonym.name ∧ e.source = x) t t'
      ∧ t'.commit.Bound x y := by
  have hc := h.coherent_commit
  simp only [ensureSynonym] at heq
  split_ifs at heq with hold
  · cases heq
    rw [Bool.or_eq_true, ← h.hasEdge_commit, ← h.hasEdge_commit, hc.hasEdge_iff_joined,
      hc.hasEdge_iff_joined] at hold
    exact ⟨.refl h, hold⟩
  · obtain ⟨⟨id, t₁⟩, h₁, heq⟩ := exists_of_bind_ok heq
    cases heq
    obtain ⟨hadds, hjoined⟩ := h.adds_addEdge h₁
    exact ⟨hadds.mono fun e he => ⟨he.1, he.2.1⟩, .inl hjoined⟩

theorem adds_ensureSemantic (h : t.WellFormed) {y : VertexId}
    (heq : ensureEdge .semantic x y t = .ok t') :
    Adds (fun e => e.label = EdgeLabel.semantic.name ∧ e.target = y) t t'
      ∧ t'.commit.Assigned y := by
  have hc := h.coherent_commit
  unfold ensureEdge at heq
  split_ifs at heq with hold
  · cases heq
    rw [← h.hasEdge_commit, hc.hasEdge_iff_joined] at hold
    obtain ⟨e, he, -, hl, ht⟩ := hold
    exact ⟨.refl h, e, he, hl, ht⟩
  · obtain ⟨⟨id, t₁⟩, h₁, heq⟩ := exists_of_bind_ok heq
    cases heq
    obtain ⟨hadds, e, he, -, hl, ht⟩ := h.adds_addEdge h₁
    exact ⟨hadds.mono fun e he => ⟨he.1, he.2.2⟩, e, he, hl, ht⟩

theorem adds_linkSynonyms : ∀ (synonyms : List Vertex) {t : Transaction}, t.WellFormed →
    (∀ s ∈ synonyms, s.guid?.isSome) → synonyms.foldlM (linkSynonym x) t = .ok t' →
      Adds (fun e => e.label = EdgeLabel.synonym.name ∧ e.source = x) t t'
        ∧ ∀ s ∈ synonyms, ∀ m, s.guid? = some m →
          ∃ v, vertexWith? t'.commit Key.nodeId m = some v ∧ t'.commit.Bound x v.id
  | [], t, h, _, heq => by
    cases heq
    exact ⟨.refl h, by simp⟩
  | s :: synonyms, t, h, hguid, heq => by
    rw [List.foldlM_cons] at heq
    obtain ⟨t₁, h₁, heq⟩ := exists_of_bind_ok heq
    obtain ⟨m, hm⟩ := Option.isSome_iff_exists.1 (hguid s List.mem_cons_self)
    obtain ⟨hterm, v, hv, hid⟩ := adds_ensureTerm h hm
    obtain ⟨hlink, hbound⟩ := adds_ensureSynonym (y := v.id) hterm.wellFormed
      (show ensureSynonym x v.id (ensureTerm s t).2 = .ok t₁ from hid ▸ h₁)
    obtain ⟨hrest, hall⟩ := adds_linkSynonyms synonyms hlink.wellFormed
      (fun s' hs' => hguid s' (List.mem_cons_of_mem _ hs')) heq
    refine ⟨((hterm.mono fun _ he => he.elim).trans hlink).trans hrest, ?_⟩
    refine List.forall_mem_cons.2 ⟨fun m' hm' => ?_, hall⟩
    obtain rfl : m = m' := Option.some.inj (hm.symm.trans hm')
    exact ⟨v, hrest.vertexWith? hlink.wellFormed (hlink.vertexWith? hterm.wellFormed hv),
      hrest.grows.bound hbound⟩

/-- Linking an asset to a term leaves the term assigned and bound to its synonyms; new edges lead to
the term or from it. -/
theorem adds_attachTerm (hb : buffer.Identified) (h : t.WellFormed) {term : Vertex} {n : String}
    (hterm : term ∈ allVertices buffer) (hn : term.guid? = some n) {asset : VertexId}
    (heq : attachTerm buffer asset t term = .ok t') :
    ∃ v, vertexWith? t'.commit Key.nodeId n = some v
      ∧ t'.commit.MirrorsAt buffer.Synonymous n v.id ∧ t'.commit.Assigned v.id
      ∧ Adds (fun e => e.label = EdgeLabel.synonym.name ∧ e.source = v.id
        ∨ e.label = EdgeLabel.semantic.name ∧ e.target = v.id) t t' := by
  obtain ⟨⟨id, t₁⟩, h₁, heq⟩ := exists_of_bind_ok heq
  obtain ⟨hadds, v, hv, hid⟩ := adds_ensureTerm h hn
  obtain ⟨synonyms, hsyn, h₁⟩ := exists_of_bind_ok h₁
  obtain ⟨t₂, h₂, h₁⟩ := exists_of_bind_ok h₁
  cases h₁
  obtain ⟨found, hfound, hmem⟩ := hb.exists_relatedInstances term TypeName.synonym
  obtain rfl : synonyms = found := Except.ok.inj (hsyn.symm.trans hfound)
  obtain ⟨hlinks, hbound⟩ := adds_linkSynonyms (x := v.id) synonyms hadds.wellFormed
    (fun s hs => ((hmem s).1 hs).2.1) (hid ▸ h₂)
  obtain ⟨hassign, hassigned⟩ := adds_ensureSemantic (y := v.id) hlinks.wellFormed (hid ▸ heq)
  have hv' := hassign.vertexWith? hlinks.wellFormed (hlinks.vertexWith? hadds.wellFormed hv)
  refine ⟨v, hv', ?_, hassigned, ?_⟩
  · rintro m ⟨b, hbmem, s, hs, hbn, hm, hrel⟩
    obtain rfl := hb.guid_unique b hbmem term hterm (hbn.trans hn.symm)
    obtain ⟨w, hw, hlink⟩ := hbound s ((hmem s).2 ⟨hs, by simp [hm], hrel⟩) m hm
    exact ⟨w, hassign.vertexWith? hlinks.wellFormed hw, hassign.grows.bound hlink⟩
  · exact ((hadds.mono fun _ he => he.elim).trans (hlinks.mono fun _ => .inl)).trans
      (hassign.mono fun _ => .inr)

/-- A stage keeps the links of assigned terms as they are in the buffer graph. -/
theorem Consolidation.Stage.mirrors (hb : buffer.Identified) (h : t.WellFormed)
    (hs : Stage buffer t t') (hm : t.commit.Mirrors buffer.Synonymous) :
    t'.WellFormed ∧ t'.commit.Mirrors buffer.Synonymous := by
  cases hs with
  | @vertex label ps heq =>
    subst heq
    have hadds := h.adds_addVertex label ps
    refine ⟨hadds.wellFormed, hm.grows h.wellFormed_commit hadds.wellFormed.wellFormed_commit
      hadds.grows fun e he => .inl ((hadds.edges e he).resolve_right id)⟩
  | edge plain heq =>
    obtain ⟨hadds, -⟩ := h.adds_addEdge heq
    refine ⟨hadds.wellFormed, hm.grows h.wellFormed_commit hadds.wellFormed.wellFormed_commit
      hadds.grows fun e he => (hadds.edges e he).imp_right fun hlabel => ⟨fun hsyn => ?_,
        fun hsem => ?_⟩⟩
    · exact absurd (EdgeLabel.name_injective (hlabel.1.symm.trans hsyn)) plain.2
    · exact absurd (EdgeLabel.name_injective (hlabel.1.symm.trans hsem)) plain.1
  | @term inst term asset terms hterms hmem heq =>
    obtain ⟨found, hfound, hiff⟩ := hb.exists_relatedInstances inst TypeName.semanticAssignment
    obtain rfl : terms = found := Except.ok.inj (hterms.symm.trans hfound)
    obtain ⟨hterm, hguid, -⟩ := (hiff term).1 hmem
    obtain ⟨n, hn⟩ := Option.isSome_iff_exists.1 hguid
    obtain ⟨v, hv, hmirrors, hassigned, hadds⟩ := adds_attachTerm hb h hterm hn heq
    have hwf := hadds.wellFormed.wellFormed_commit
    refine ⟨hadds.wellFormed, hm.grows h.wellFormed_commit hwf hadds.grows fun e he =>
      (hadds.edges e he).imp_right ?_⟩
    rintro (⟨hl, hsource⟩ | ⟨hl, htarget⟩)
    · exact ⟨fun _ => hsource ▸ hassigned, fun hsem => by simp [hl] at hsem⟩
    · refine ⟨fun hsyn => by simp [hl] at hsyn, fun _ m u hu hid => ?_⟩
      -- the term is looked up under its own node id only
      have humem := hwf.mem_of_vertexWith? hu
      have hvmem := hwf.mem_of_vertexWith? hv
      obtain rfl := hwf.eq_of_vertex_id humem.1 hvmem.1 (hid.trans htarget)
      obtain rfl : m = n := Option.some.inj (humem.2.symm.trans hvmem.2)
      exact hmirrors

theorem Consolidation.Stages.mirrors (hb : buffer.Identified) (h : t.WellFormed)
    (hs : Stages buffer t t') (hm : t.commit.Mirrors buffer.Synonymous) :
    t'.WellFormed ∧ t'.commit.Mirrors buffer.Synonymous := by
  induction hs with
  | refl => exact ⟨h, hm⟩
  | tail _ hs ih => exact hs.mirrors hb ih.1 ih.2

theorem mirrors_consolidate [StepIds] {depths : SearchDepths} {main main' : Graph} {f : Fragment}
    {outcome : Outcome} (hb : buffer.Identified) (hmain : main.WellFormed)
    (hm : main.Mirrors buffer.Synonymous)
    (h : consolidate depths buffer main f = .ok (outcome, main')) :
    main'.Mirrors buffer.Synonymous := by
  obtain ⟨⟨sub, t⟩, hfold, h⟩ := exists_of_bind_ok h
  have hstages := stages_fold hfold
  cases sub with
  | none =>
    obtain ⟨calls, rfl⟩ := hstages.reaches
    cases h
    show ((main.begin.performAll calls).finish .rollback).Mirrors _
    rwa [hmain.finish_of_ne calls (by decide)]
  | some sub =>
    cases h
    refine (hstages.mirrors hb (wellFormed_begin hmain) ?_).2
    rwa [commit_begin]

end Stages

/-! ## Runs -/

/-- A process context brings no synonyms. -/
theorem Graph.Identified.synonymous_of_upsert {buffer : Graph} (hb : buffer.Identified)
    {p : Entity} {n m : String} (h : (buffer.upsert p).Synonymous n m) : buffer.Synonymous n m := by
  obtain ⟨b, hbmem, s, hs, hbn, hsm, e, he, hl, hends⟩ := h
  rw [Graph.allEdges_upsert] at he
  have hup := hb.upsert p
  have hback : ∀ {x : Vertex} {k : String}, x ∈ allVertices (buffer.upsert p) →
      x.guid? = some k → (∃ y ∈ allVertices buffer, y.id = x.id) →
        ∃ y ∈ allVertices buffer, y.id = x.id ∧ y.guid? = some k := by
    rintro x k hx hk ⟨y, hy, hid⟩
    obtain ⟨y', hy', hid', -, hguid⟩ := (hb.keeps_upsert p).vertex y hy
    rw [hup.eq_of_vertex_id hy' hx (hid'.trans hid)] at hguid
    exact ⟨y, hy, hid, hguid.symm.trans hk⟩
  have hsource := hb.exists_source he
  have htarget := hb.exists_target he
  obtain ⟨b', hb', hbid, hbn'⟩ := hback hbmem hbn <| by
    rcases hends with ⟨hb, -⟩ | ⟨-, hb⟩
    · exact hb ▸ hsource
    · exact hb ▸ htarget
  obtain ⟨s', hs', hsid, hsm'⟩ := hback hs hsm <| by
    rcases hends with ⟨-, hs⟩ | ⟨hs, -⟩
    · exact hs ▸ htarget
    · exact hs ▸ hsource
  exact ⟨b', hb', s', hs', hbn', hsm', e, he, hl, by rwa [hbid, hsid]⟩

/-- An errand that tells of entities or relationships, and not of lineage. -/
def Errand.describes : Errand → Bool
  | record (.processContext _ _) | consolidate _ _ _ => false
  | record _ => true

namespace Workspace

variable [StepIds] {w : Workspace}

theorem attempt_main_of_describes (w : Workspace) {task : Task} (h : task.errand.describes) :
    (w.attempt task).main = w.main := by
  cases task with
  | record e =>
    rcases happly : Buffer.apply w.buffer e with err | ⟨fs, buffer⟩
    · simp only [attempt, happly]
    · rw [attempt_record happly]
  | consolidate depths f => cases h

theorem attemptAll_main_of_describes : ∀ (tasks : List Task) (w : Workspace),
    (∀ task ∈ tasks, task.errand.describes) → (w.attemptAll tasks).main = w.main
  | [], _, _ => rfl
  | task :: tasks, w, h =>
    (attemptAll_main_of_describes tasks _ fun task' h' => h task' (List.mem_cons_of_mem _ h')).trans
      (attempt_main_of_describes w (h task List.mem_cons_self))

theorem mirrors_attempt (hb : w.buffer.Identified) (hmain : w.main.WellFormed) {task : Task}
    (htask : ¬ task.errand.describes) (hm : w.main.Mirrors w.buffer.Synonymous) :
    (w.attempt task).main.Mirrors (w.attempt task).buffer.Synonymous := by
  cases task with
  | record e =>
    cases e with
    | processContext p ms =>
      obtain ⟨name, happly⟩ := apply_entity hb.toWellFormed (e := .processContext p ms) rfl
      rw [attempt_record happly]
      exact hm.mono fun n m => hb.synonymous_of_upsert
    | newEntity | updatedEntity | newRelationship => exact absurd rfl htask
  | consolidate depths f =>
    rcases hc : Consolidation.consolidate depths w.buffer w.main f with err | ⟨outcome, main⟩
    · simpa only [attempt, hc] using hm
    · rw [attempt_consolidate hc]
      exact mirrors_consolidate hb hmain hm hc

theorem mirrors_attemptAll : ∀ (tasks : List Task) {w : Workspace}, w.buffer.Identified →
    w.main.WellFormed → (∀ task ∈ tasks, ¬ task.errand.describes) →
      w.main.Mirrors w.buffer.Synonymous →
        (w.attemptAll tasks).main.Mirrors (w.attemptAll tasks).buffer.Synonymous
  | [], _, _, _, _, hm => hm
  | task :: tasks, _, hb, hmain, h, hm =>
    have hlater := later_attempt hb hmain task
    mirrors_attemptAll tasks hlater.buffer hlater.main
      (fun task' h' => h task' (List.mem_cons_of_mem _ h'))
      (mirrors_attempt hb hmain (h task List.mem_cons_self) hm)

end Workspace

/-- A list in which none of a kind comes after one that is not of it falls into two parts. -/
theorem exists_eq_append_of_pairwise {α : Type} {p : α → Prop} : ∀ {xs : List α},
    xs.Pairwise (fun x y => p y → p x) →
      ∃ ys zs, xs = ys ++ zs ∧ (∀ y ∈ ys, p y) ∧ ∀ z ∈ zs, ¬ p z
  | [], _ => ⟨[], [], rfl, by simp, by simp⟩
  | x :: xs, h => by
    obtain ⟨hx, hxs⟩ := List.pairwise_cons.1 h
    by_cases hp : p x
    · obtain ⟨ys, zs, rfl, hys, hzs⟩ := exists_eq_append_of_pairwise hxs
      exact ⟨x :: ys, zs, rfl, List.forall_mem_cons.2 ⟨hp, hys⟩, hzs⟩
    · exact ⟨[], x :: xs, rfl, by simp, List.forall_mem_cons.2 ⟨hp, fun y hy => hp ∘ hx y hy⟩⟩

/-- Where entities and relationships come before lineage, every run leaves assigned terms bound to
their synonyms. -/
theorem Service.mirrors_run [StepIds] (settings : Settings) (ops : List Operation)
    (hordered : (ops.flatMap Operation.errands).Pairwise fun o o' => o'.describes → o.describes) :
    ((initial settings).run ops).graphs.main.Mirrors
      ((initial settings).run ops).graphs.buffer.Synonymous := by
  have hb : (initial settings).workspace.buffer.Identified := Graph.identified_empty _
  have hm : (initial settings).workspace.main.WellFormed := Graph.wellFormed_empty _
  obtain ⟨tasks, hrun, hsub⟩ := exists_tasks_run ops hb hm
  obtain ⟨told, rest, rfl, htold, hrest⟩ := exists_eq_append_of_pairwise
    (p := fun task : Task => task.errand.describes) (List.pairwise_map.1 (hordered.sublist hsub))
  have hlater := Workspace.later_attemptAll told hb hm
  have hnone : (((initial settings).workspace.attemptAll told).main).Mirrors
      ((initial settings).workspace.attemptAll told).buffer.Synonymous := by
    rw [Workspace.attemptAll_main_of_describes told _ htold]
    exact .empty _
  have hall := Workspace.mirrors_attemptAll rest hlater.buffer hlater.main hrest hnone
  rwa [← Workspace.attemptAll_append, hrun] at hall

/-- Where entities and relationships come before lineage, two synonyms that are both in the graph
have one edge between them if an asset is assigned to one of them, and none otherwise. -/
theorem synonymEdges_length_eq_one_iff [StepIds] (settings : Settings) (ops : List Operation)
    (hordered : (ops.flatMap Operation.errands).Pairwise fun o o' => o'.describes → o.describes)
    {n m : String} (hsyn : ((Service.initial settings).run ops).graphs.buffer.Synonymous n m) :
    let g := ((Service.initial settings).run ops).graphs.main
    ∀ u v, vertexWith? g Key.nodeId n = some u → vertexWith? g Key.nodeId m = some v →
      (g.synonymEdges u.id v.id).length ≤ 1
        ∧ ((g.synonymEdges u.id v.id).length = 1 ↔ g.Assigned u.id ∨ g.Assigned v.id) := by
  intro g u v hu hv
  have hreg := Service.regular_run (U := fun _ => True) ops (Service.regular_initial settings)
    fun _ _ _ _ => trivial
  have hle : (g.synonymEdges u.id v.id).length ≤ 1 :=
    hreg.writes.made.length_synonymEdges_le_one hreg.main.toCoherent
  have hmirrors := Service.mirrors_run settings ops hordered
  refine ⟨hle, fun hone => ?_, fun hassigned => ?_⟩
  · obtain ⟨e, he⟩ := List.length_eq_one_iff.1 hone
    obtain ⟨hemem, hl, ⟨hs, -⟩ | ⟨hs, -⟩⟩ :=
      Graph.mem_synonymEdges.1 (he ▸ List.mem_singleton.2 rfl : e ∈ g.synonymEdges u.id v.id)
    · exact .inl (hs ▸ hmirrors.assigned e hemem hl)
    · exact .inr (hs ▸ hmirrors.assigned e hemem hl)
  · have hbound : g.Bound u.id v.id := by
      rcases hassigned with hu' | hv'
      · obtain ⟨w, hw, hbound⟩ := hmirrors.bound n u hu hu' m hsyn
        obtain rfl : v = w := Option.some.inj (hv.symm.trans hw)
        exact hbound
      · obtain ⟨w, hw, hbound⟩ := hmirrors.bound m v hv hv' n hsyn.symm
        obtain rfl : u = w := Option.some.inj (hu.symm.trans hw)
        exact hbound.symm
    obtain ⟨e, he⟩ := hbound.exists_mem
    exact Nat.le_antisymm hle (List.length_pos_of_mem he)

/-- A term with an asset and two synonyms, which are synonyms of one another too. -/
def sampleTerms : List Operation :=
  [.ingestAll [
    .newEntity { guid := "t", type := "RelationalTable" },
    .newEntity { guid := "x", type := "RelationalColumn" },
    .newEntity { guid := "y", type := "RelationalColumn" },
    .newEntity { guid := "a", type := "GlossaryTerm" },
    .newEntity { guid := "b", type := "GlossaryTerm" },
    .newEntity { guid := "c", type := "GlossaryTerm" },
    .newRelationship { guid := "r1", type := "AttributeForSchema", endOne := "t", endTwo := "x" },
    .newRelationship { guid := "r2", type := "AttributeForSchema", endOne := "t", endTwo := "y" },
    .newRelationship { guid := "r3", type := "SemanticAssignment", endOne := "x", endTwo := "a" },
    .newRelationship { guid := "r4", type := "Synonym", endOne := "a", endTwo := "b" },
    .newRelationship { guid := "r5", type := "Synonym", endOne := "a", endTwo := "c" },
    .newRelationship { guid := "r6", type := "Synonym", endOne := "b", endTwo := "c" },
    .processContext { guid := "p", type := "Process" } [⟨"x", "y"⟩]]]

theorem synonymEdges_length_eq_one_iff_sampleTerms :
    let s := (Service.initial {}).run sampleTerms
    (sampleTerms.flatMap Operation.errands).Pairwise (fun o o' => o'.describes → o.describes)
    ∧ s.graphs.buffer.Synonymous "a" "b"
    ∧ ∃ u ∈ allVertices s.graphs.main, ∃ v ∈ allVertices s.graphs.main,
      vertexWith? s.graphs.main Key.nodeId "a" = some u
      ∧ vertexWith? s.graphs.main Key.nodeId "b" = some v
      ∧ (s.graphs.main.synonymEdges u.id v.id).length = 1 := by
  have hordered : (sampleTerms.flatMap Operation.errands).Pairwise
      fun o o' => o'.describes → o.describes := by decide +kernel
  have hsyn : ((Service.initial {}).run sampleTerms).graphs.buffer.Synonymous "a" "b" := by
    decide +kernel
  obtain ⟨u, hu, v, hv, hfu, hfv, hassigned⟩ :
      let g := ((Service.initial {}).run sampleTerms).graphs.main
      ∃ u ∈ allVertices g, ∃ v ∈ allVertices g, vertexWith? g Key.nodeId "a" = some u
        ∧ vertexWith? g Key.nodeId "b" = some v ∧ g.Assigned u.id := by decide +kernel
  have hone := synonymEdges_length_eq_one_iff {} sampleTerms hordered hsyn u v hfu hfv
  exact ⟨hordered, hsyn, u, hu, v, hv, hfu, hfv, hone.2.2 (.inl hassigned)⟩

/-- Synonyms without an asset are both in the graph, and not linked. -/
theorem synonymEdges_eq_nil_sampleTerms :
    let s := (Service.initial {}).run sampleTerms
    (sampleTerms.flatMap Operation.errands).Pairwise (fun o o' => o'.describes → o.describes)
    ∧ s.graphs.buffer.Synonymous "b" "c"
    ∧ ∃ u ∈ allVertices s.graphs.main, ∃ v ∈ allVertices s.graphs.main,
      vertexWith? s.graphs.main Key.nodeId "b" = some u
      ∧ vertexWith? s.graphs.main Key.nodeId "c" = some v
      ∧ s.graphs.main.synonymEdges u.id v.id = [] := by
  decide +kernel

end Lineage
