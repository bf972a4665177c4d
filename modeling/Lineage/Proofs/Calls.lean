import Lineage.Proofs.Ensuring
import Lineage.Proofs.Histories
import Lineage.Synthetic

/-!
# Operations as calls

Nothing that the buffer graph or consolidation does to an open transaction goes beyond the calls of
the store: whatever a computation yields, its transaction is the one it was given after some calls
(`Transaction.Reaches`). Folding in a fragment is made up of stages of three kinds
(`Consolidation.stages_fold`). So every event, fragment and batch leaves graphs with a longer
history (`Graph.Extends`), whether it succeeds or fails.
-/

namespace Lineage

open Std

namespace Transaction

/-- Some calls lead from one transaction to another. -/
def Reaches (t t' : Transaction) : Prop := ∃ calls, t' = t.performAll calls

variable {t t' : Transaction}

namespace Reaches

theorem refl (t : Transaction) : t.Reaches t := ⟨[], rfl⟩

theorem trans {t'' : Transaction} (h : t.Reaches t') (h' : t'.Reaches t'') : t.Reaches t'' := by
  obtain ⟨calls, rfl⟩ := h
  obtain ⟨later, rfl⟩ := h'
  exact ⟨calls ++ later, (performAll_append t calls later).symm⟩

theorem addVertex (t : Transaction) (label : String) (ps : Properties) :
    t.Reaches (t.addVertex label ps).2 :=
  ⟨[.addVertex label ps], rfl⟩

theorem setProperty {id : VertexId} {key value : String} (h : t.setProperty id key value = .ok t') :
    t.Reaches t' := by
  refine ⟨[.setProperty id key value], ?_⟩
  show t' = t.perform (.setProperty id key value)
  simp only [perform, call, h]
  rfl

theorem addEdge {label : String} {source target : VertexId} {ps : Properties} {id : EdgeId}
    (h : t.addEdge label source target ps = .ok (id, t')) : t.Reaches t' := by
  refine ⟨[.addEdge label source target ps], ?_⟩
  show t' = t.perform (.addEdge label source target ps)
  simp only [perform, call, h]
  rfl

theorem foldlM {ε α : Type} {f : Transaction → α → Except ε Transaction}
    (hf : ∀ {t x t'}, f t x = .ok t' → t.Reaches t') (xs : List α) {t : Transaction}
    (h : xs.foldlM f t = .ok t') : t.Reaches t' :=
  foldlM_ok xs h (refl t) fun _ _ _ _ hreached hstep => hreached.trans (hf hstep)

end Reaches

end Transaction

open Transaction (Reaches)

/-! ## The buffer graph -/

namespace Buffer

variable {t t' : Transaction}

theorem reaches_overwrite {id : VertexId} {ps : Properties} (h : overwrite id ps t = .ok t') :
    t.Reaches t' :=
  Reaches.foldlM (fun h => .setProperty h) _ h

theorem reaches_upsert {e : Entity} {id : VertexId} (h : upsert e t = .ok (id, t')) :
    t.Reaches t' := by
  unfold upsert at h
  split at h
  · obtain ⟨t₁, h₁, h⟩ := exists_of_bind_ok h
    cases h
    exact reaches_overwrite (ok_of_lift h₁)
  · cases h
    exact .addVertex _ _ _

theorem reaches_relate {r : Relationship} (h : relate r t = .ok t') : t.Reaches t' := by
  unfold relate at h
  obtain ⟨one, -, h⟩ := exists_of_bind_ok h
  obtain ⟨two, -, h⟩ := exists_of_bind_ok h
  split_ifs at h
  · cases h
    exact .refl _
  · obtain ⟨⟨id, t₁⟩, h₁, h⟩ := exists_of_bind_ok h
    cases h
    exact .addEdge (ok_of_lift h₁)

theorem reaches_applyContext {process : Entity} {mappings : List ColumnMapping}
    {fs : List Fragment} (h : applyContext process mappings t = .ok (fs, t')) : t.Reaches t' := by
  unfold applyContext at h
  obtain ⟨⟨id, t₁⟩, h₁, h⟩ := exists_of_bind_ok h
  obtain ⟨v, -, h⟩ := exists_of_bind_ok h
  split at h
  · cases h
  · cases h
    exact reaches_upsert h₁

theorem reaches_applyTo {e : Event} {fs : List Fragment} (h : applyTo t e = .ok (fs, t')) :
    t.Reaches t' := by
  cases e with
  | newEntity e | updatedEntity e =>
    obtain ⟨⟨id, t₁⟩, h₁, h⟩ := exists_of_bind_ok h
    cases h
    exact reaches_upsert h₁
  | newRelationship r =>
    obtain ⟨t₁, h₁, h⟩ := exists_of_bind_ok h
    cases h
    exact reaches_relate h₁
  | processContext process mappings => exact reaches_applyContext h

end Buffer

/-! ## Consolidation -/

namespace Consolidation

variable {buffer : Graph} {depths : SearchDepths} {t t' : Transaction}

theorem reaches_ensureEdge {label : EdgeLabel} {source target : VertexId}
    (h : ensureEdge label source target t = .ok t') : t.Reaches t' := by
  unfold ensureEdge at h
  split_ifs at h
  · cases h
    exact .refl _
  · obtain ⟨⟨id, t₁⟩, h₁, h⟩ := exists_of_bind_ok h
    cases h
    exact .addEdge h₁

theorem reaches_ensureTerm (term : Vertex) (t : Transaction) :
    t.Reaches (ensureTerm term t).2 := by
  unfold ensureTerm
  simp only
  split
  · exact .refl _
  · exact .addVertex _ _ _

theorem reaches_ensureSynonym {term synonym : VertexId}
    (h : ensureSynonym term synonym t = .ok t') : t.Reaches t' := by
  unfold ensureSynonym at h
  simp only at h
  split_ifs at h
  · cases h
    exact .refl _
  · obtain ⟨⟨id, t₁⟩, h₁, h⟩ := exists_of_bind_ok h
    cases h
    exact .addEdge h₁

theorem reaches_ensureTermAndSynonyms {term : Vertex} {id : VertexId}
    (h : ensureTermAndSynonyms buffer term t = .ok (id, t')) : t.Reaches t' := by
  unfold ensureTermAndSynonyms at h
  obtain ⟨synonyms, -, h⟩ := exists_of_bind_ok h
  obtain ⟨t₁, h₁, h⟩ := exists_of_bind_ok h
  cases h
  exact (reaches_ensureTerm term t).trans
    (Reaches.foldlM (fun h => (reaches_ensureTerm _ _).trans (reaches_ensureSynonym h)) _ h₁)

/-- A part of what is done for a fragment: a vertex is added, an edge that does not lead to a term,
or an asset is linked to a term that its instance is assigned to, which brings its synonyms
along. -/
inductive Stage (buffer : Graph) (t t' : Transaction) : Prop
  | vertex {label : String} {ps : Properties} (eq : t' = (t.addVertex label ps).2)
  | edge {label : EdgeLabel} {source target : VertexId} {id : EdgeId}
      (plain : label ≠ .semantic ∧ label ≠ .synonym)
      (eq : t.addEdge label.name source target ∅ = .ok (id, t'))
  | term {inst term : Vertex} {asset : VertexId} {terms : List Vertex}
      (terms_eq : relatedInstances buffer inst.id TypeName.semanticAssignment = .ok terms)
      (mem : term ∈ terms) (eq : attachTerm buffer asset t term = .ok t')

def Stages (buffer : Graph) : Transaction → Transaction → Prop :=
  Relation.ReflTransGen (Stage buffer)

theorem Stage.reaches (h : Stage buffer t t') : t.Reaches t' := by
  cases h with
  | vertex eq => exact eq ▸ .addVertex _ _ _
  | edge _ eq => exact .addEdge eq
  | term _ _ eq =>
    obtain ⟨⟨id, t₁⟩, h₁, h⟩ := exists_of_bind_ok eq
    exact (reaches_ensureTermAndSynonyms h₁).trans (reaches_ensureEdge h)

namespace Stages

theorem refl (t : Transaction) : Stages buffer t t := Relation.ReflTransGen.refl

theorem single (h : Stage buffer t t') : Stages buffer t t' := Relation.ReflTransGen.single h

theorem trans {t'' : Transaction} (h : Stages buffer t t') (h' : Stages buffer t' t'') :
    Stages buffer t t'' :=
  Relation.ReflTransGen.trans h h'

theorem reaches (h : Stages buffer t t') : t.Reaches t' := by
  induction h with
  | refl => exact .refl _
  | tail _ hs ih => exact ih.trans hs.reaches

end Stages

theorem stages_ensureEdge {label : EdgeLabel} (plain : label ≠ .semantic ∧ label ≠ .synonym)
    {source target : VertexId} (h : ensureEdge label source target t = .ok t') :
    Stages buffer t t' := by
  unfold ensureEdge at h
  split_ifs at h
  · cases h
    exact .refl _
  · obtain ⟨⟨id, t₁⟩, h₁, h⟩ := exists_of_bind_ok h
    cases h
    exact .single (.edge plain h₁)

theorem stages_attachTerms {inst : Vertex} {asset : VertexId}
    (h : attachTerms buffer inst.id asset t = .ok t') : Stages buffer t t' := by
  unfold attachTerms at h
  obtain ⟨terms, hterms, h⟩ := exists_of_bind_ok h
  suffices ∀ (xs : List Vertex) {t : Transaction}, (∀ x ∈ xs, x ∈ terms) →
      xs.foldlM (attachTerm buffer asset) t = .ok t' → Stages buffer t t' from
    this terms (fun _ hx => hx) h
  intro xs
  induction xs with
  | nil => exact fun _ h => Except.ok.inj h ▸ .refl _
  | cons x xs ih =>
    intro t hxs h
    rw [List.foldlM_cons] at h
    obtain ⟨t₁, h₁, h⟩ := exists_of_bind_ok h
    exact (Stages.single (.term hterms (hxs x List.mem_cons_self) h₁)).trans
      (ih (fun y hy => hxs y (List.mem_cons_of_mem _ hy)) h)

theorem stages_ensureAsset {inst : Vertex} {guid : String} {id : VertexId}
    (h : ensureAsset depths buffer inst guid t = .ok (id, t')) : Stages buffer t t' := by
  unfold ensureAsset at h
  split at h
  · cases h
    exact .refl _
  · obtain ⟨ps, -, h⟩ := exists_of_bind_ok h
    obtain ⟨t₁, h₁, h⟩ := exists_of_bind_ok h
    cases h
    exact (Stages.single (.vertex rfl)).trans (stages_attachTerms h₁)

theorem stages_ensureProcess (p : ProcessRef) (t : Transaction) :
    Stages buffer t (ensureProcess p t).2 := by
  unfold ensureProcess
  simp only
  split
  · exact .refl _
  · exact .single (.vertex rfl)

theorem stages_ensureTable {column : Vertex} {guid : String} {id : VertexId}
    (h : ensureTable depths buffer column guid t = .ok (id, t')) : Stages buffer t t' := by
  unfold ensureTable at h
  obtain ⟨table, -, h⟩ := exists_of_bind_ok h
  split at h
  · split at h
    · split at h
      · cases h
        exact .refl _
      · obtain ⟨schema, -, h⟩ := exists_of_bind_ok h
        cases h
        exact .single (.vertex rfl)
    · cases h
  · cases h

theorem stages_linkTable {role : TableRole} {table process column : VertexId}
    (h : linkTable buffer role table process column t = .ok t') : Stages buffer t t' := by
  unfold linkTable at h
  obtain ⟨t₁, h₁, h⟩ := exists_of_bind_ok h
  obtain ⟨t₂, h₂, h⟩ := exists_of_bind_ok h
  obtain ⟨v, -, h⟩ := exists_of_bind_ok h
  have hedges : Stages buffer t t₂ :=
    (stages_ensureEdge (by decide) h₁).trans (stages_ensureEdge (by decide) h₂)
  split at h
  · exact hedges.trans (stages_attachTerms h)
  · cases h
    exact hedges

theorem stages_addSubProcess [StepIds] {p : ProcessRef} {columnIn columnOut id : VertexId}
    (h : addSubProcess p columnIn columnOut t = .ok (id, t')) : Stages buffer t t' := by
  unfold addSubProcess at h
  obtain ⟨⟨e₁, t₁⟩, h₁, h⟩ := exists_of_bind_ok h
  obtain ⟨⟨e₂, t₂⟩, h₂, h⟩ := exists_of_bind_ok h
  cases h
  exact (Stages.single (.vertex rfl)).trans
    ((Stages.single (.edge (by decide) h₁)).trans (.single (.edge (by decide) h₂)))

theorem stages_fold [StepIds] {f : Fragment} {sub : Option VertexId}
    (h : fold depths buffer f t = .ok (sub, t')) : Stages buffer t t' := by
  unfold fold at h
  obtain ⟨instIn, -, h⟩ := exists_of_bind_ok h
  obtain ⟨instOut, -, h⟩ := exists_of_bind_ok h
  obtain ⟨⟨columnIn, t₁⟩, h₁, h⟩ := exists_of_bind_ok h
  obtain ⟨⟨columnOut, t₂⟩, h₂, h⟩ := exists_of_bind_ok h
  obtain ⟨present, -, h⟩ := exists_of_bind_ok h
  have hcolumns := (stages_ensureAsset (ok_of_lift h₁)).trans
    (stages_ensureAsset (ok_of_lift h₂))
  split_ifs at h
  · cases h
    exact hcolumns
  · obtain ⟨⟨sub, t₃⟩, h₃, h⟩ := exists_of_bind_ok h
    obtain ⟨⟨e, t₄⟩, h₄, h⟩ := exists_of_bind_ok h
    obtain ⟨⟨tableIn, t₅⟩, h₅, h⟩ := exists_of_bind_ok h
    obtain ⟨⟨tableOut, t₆⟩, h₆, h⟩ := exists_of_bind_ok h
    obtain ⟨t₇, h₇, h⟩ := exists_of_bind_ok h
    obtain ⟨t₈, h₈, h⟩ := exists_of_bind_ok h
    cases h
    have hstep : Stages buffer t₂ t₄ := (stages_addSubProcess (ok_of_lift h₃)).trans
      ((stages_ensureProcess _ _).trans (.single (.edge (by decide) (ok_of_lift h₄))))
    have htables := (stages_ensureTable h₅).trans (stages_ensureTable h₆)
    have hlinks := (stages_linkTable (ok_of_lift h₇)).trans (stages_linkTable (ok_of_lift h₈))
    exact hcolumns.trans (hstep.trans (htables.trans hlinks))

end Consolidation

/-! ## Graphs with a longer history -/

namespace Graph

/-- Some transactions lead from one graph to another. -/
def Extends (g g' : Graph) : Prop := ∃ history, g' = g.after history

variable {g g' : Graph}

namespace Extends

theorem refl (g : Graph) : g.Extends g := ⟨[], rfl⟩

theorem trans {g'' : Graph} (h : g.Extends g') (h' : g'.Extends g'') : g.Extends g'' := by
  obtain ⟨history, rfl⟩ := h
  obtain ⟨later, rfl⟩ := h'
  exact ⟨history ++ later, (after_append g history later).symm⟩

theorem finish {t : Transaction} (h : g.begin.Reaches t) (e : Ending) : g.Extends (t.finish e) := by
  obtain ⟨calls, rfl⟩ := h
  exact ⟨[⟨calls, e⟩], rfl⟩

end Extends

end Graph

theorem Buffer.extends_apply {buffer buffer' : Graph} {e : Event} {fs : List Fragment}
    (h : Buffer.apply buffer e = .ok (fs, buffer')) : buffer.Extends buffer' := by
  obtain ⟨⟨fs, t⟩, h₁, h⟩ := exists_of_bind_ok h
  cases h
  exact .finish (reaches_applyTo h₁) .commit

theorem Consolidation.extends_consolidate [StepIds] {buffer main main' : Graph}
    {depths : SearchDepths} {f : Fragment} {outcome : Outcome}
    (h : consolidate depths buffer main f = .ok (outcome, main')) : main.Extends main' := by
  obtain ⟨⟨sub, t⟩, h₁, h⟩ := exists_of_bind_ok h
  cases sub with
  | none =>
    cases h
    exact .finish (stages_fold h₁).reaches .rollback
  | some sub =>
    cases h
    exact .finish (stages_fold h₁).reaches .commit

namespace Workspace

/-- Both graphs have a longer history. -/
structure Extends (w w' : Workspace) : Prop where
  buffer : w.buffer.Extends w'.buffer
  main : w.main.Extends w'.main

namespace Extends

variable {w w' : Workspace}

theorem refl (w : Workspace) : w.Extends w := ⟨.refl _, .refl _⟩

theorem trans {w'' : Workspace} (h : w.Extends w') (h' : w'.Extends w'') : w.Extends w'' :=
  ⟨h.buffer.trans h'.buffer, h.main.trans h'.main⟩

end Extends

variable [StepIds] (depths : SearchDepths)

theorem extends_consolidateNoting (w : Workspace) (s : Summary) (f : Fragment) :
    w.Extends (consolidateNoting depths w s f).2 := by
  unfold consolidateNoting
  split
  · next heq => exact ⟨.refl _, Consolidation.extends_consolidate heq⟩
  · next heq => exact ⟨.refl _, Consolidation.extends_consolidate heq⟩
  · exact .refl w

theorem extends_consolidateAll : ∀ (fs : List Fragment) (s : Summary) (w : Workspace),
    w.Extends (consolidateAll depths fs s w).2
  | [], _, w => .refl w
  | f :: fs, s, w => (extends_consolidateNoting depths w s f).trans (extends_consolidateAll fs _ _)

theorem extends_ingest {w w' : Workspace} {e : Event} {s : Summary}
    (h : ingest depths w e = .ok (s, w')) : w.Extends w' := by
  obtain ⟨⟨fs, buffer⟩, happly, h⟩ := exists_of_bind_ok h
  have hall := extends_consolidateAll depths fs { events := 1, fragments := fs.length }
    { w with buffer }
  rw [Except.ok.inj h] at hall
  exact ⟨(Buffer.extends_apply happly).trans hall.buffer, hall.main⟩

theorem extends_ingestFrom : ∀ (es : List Event) (index : Nat) (s : Summary) (w : Workspace),
    w.Extends (ingestFrom depths index es s w).2
  | [], _, _, w => .refl w
  | e :: es, index, s, w => by
    unfold ingestFrom
    split
    · next heq => exact (extends_ingest depths heq).trans (extends_ingestFrom es _ _ _)
    · exact extends_ingestFrom es _ _ w

end Workspace

end Lineage
