import Lineage.Buffer
import Lineage.Proofs.Growth
import Lineage.Proofs.Searching

/-!
# Recording an event

What an event does to the buffer graph, told without the transaction it happens in. An entity is
upserted (`apply_newEntity`), a relationship joins two vertices unless it does so already
(`apply_newRelationship`), and a process context is the upsert of its process, which its fragments
refer to by guid (`apply_processContext`).
-/

namespace Lineage

open Std Buffer

/-! ## Stored properties -/

theorem Key.ofEntity_ne {k : String} (hk : k.toList.head? ≠ some 'v') (property : String) :
    Key.ofEntity property ≠ k := by
  rintro rfl
  simp [Key.ofEntity] at hk

theorem Key.ofEntity_ne_guid (property : String) : Key.ofEntity property ≠ Key.guid :=
  Key.ofEntity_ne (by decide) property

theorem getElem?_storedProperties_guid (ps : Properties) :
    (storedProperties ps)[Key.guid]? = none := by
  suffices ∀ (xs : List (String × String)) (stored : Properties), stored[Key.guid]? = none →
      (xs.foldl (fun stored p => stored.insert (Key.ofEntity p.1) p.2) stored)[Key.guid]? = none
    from this ps.toList ∅ (by simp)
  intro xs
  induction xs with
  | nil => exact fun _ h => h
  | cons x xs ih =>
    intro stored h
    refine ih _ ?_
    rw [Properties.getElem?_insert_of_ne (Key.ofEntity_ne_guid x.1).symm]
    exact h

/-- Properties overwritten by others, one by one. -/
def merge (ps qs : Properties) : Properties :=
  qs.toList.foldl (fun ps p => ps.insert p.1 p.2) ps

theorem getElem?_foldl_insert {k : String} : ∀ (xs : List (String × String)) (ps : Properties),
    xs.Pairwise (fun p q => p.1 ≠ q.1) →
      (∀ {v}, (k, v) ∈ xs → (xs.foldl (fun ps p => ps.insert p.1 p.2) ps)[k]? = some v)
        ∧ ((∀ v, (k, v) ∉ xs) → (xs.foldl (fun ps p => ps.insert p.1 p.2) ps)[k]? = ps[k]?)
  | [], _, _ => by simp
  | x :: xs, ps, h => by
    obtain ⟨hx, hxs⟩ := List.pairwise_cons.1 h
    obtain ⟨hin, hout⟩ := getElem?_foldl_insert xs (ps.insert x.1 x.2) hxs
    refine ⟨fun {v} hv => ?_, fun hv => ?_⟩
    · rcases List.mem_cons.1 hv with rfl | hv
      · refine (hout fun w hw => hx _ hw rfl).trans ?_
        exact ExtTreeMap.getElem?_insert_self
      · exact hin hv
    · refine (hout fun w hw => hv w (List.mem_cons_of_mem _ hw)).trans ?_
      refine Properties.getElem?_insert_of_ne (fun heq => hv x.2 ?_) _
      simp [heq]

theorem getElem?_merge (ps qs : Properties) (k : String) :
    (merge ps qs)[k]? = qs[k]?.or ps[k]? := by
  have hdistinct : qs.toList.Pairwise fun p q => p.1 ≠ q.1 := by
    refine (ExtTreeMap.distinct_keys_toList (t := qs)).imp fun h heq => h ?_
    rw [heq]
    exact compare_self
  obtain ⟨hin, hout⟩ := getElem?_foldl_insert (k := k) qs.toList ps hdistinct
  rcases hk : qs[k]? with _ | v
  · rw [Option.none_or]
    refine hout fun v hv => ?_
    rw [ExtTreeMap.mem_toList_iff_getElem?_eq_some, hk] at hv
    cases hv
  · rw [Option.some_or]
    exact hin (ExtTreeMap.mem_toList_iff_getElem?_eq_some.2 hk)

/-! ## Writing a vertex twice -/

namespace Graph

variable {g : Graph}

theorem Coherent.mem_insertVertex (h : g.Coherent) {w u : Vertex} :
    u ∈ allVertices (g.insertVertex w) ↔ u = w ∨ u ∈ allVertices g ∧ u.id ≠ w.id := by
  rw [(h.insertVertex w).mem_allVertices, h.mem_allVertices]
  show (g.vertices.insert w.id w)[u.id]? = some u ↔ u = w ∨ g.vertices[u.id]? = some u ∧ _
  rw [ExtTreeMap.getElem?_insert]
  simp only [Nat.compare_eq_eq]
  split_ifs with hid
  · rw [Option.some.injEq, eq_comm]
    exact ⟨.inl, fun hu => hu.resolve_right fun hu => hu.2 hid.symm⟩
  · exact ⟨fun hu => .inr ⟨hu, Ne.symm hid⟩, fun hu => (hu.resolve_left fun hu => hid (hu ▸ rfl)).1⟩

theorem Coherent.insertVertex_insertVertex (h : g.Coherent) {v w : Vertex} (hid : v.id = w.id) :
    (g.insertVertex v).insertVertex w = g.insertVertex w := by
  refine ext_of_coherent ((h.insertVertex v).insertVertex w) (h.insertVertex w) rfl ?_ rfl ?_ rfl
    rfl rfl rfl
  · show max (max g.nextVertex (v.id + 1)) (w.id + 1) = max g.nextVertex (w.id + 1)
    rw [hid, Nat.max_assoc, Nat.max_self]
  · refine ExtTreeMap.ext_getElem? fun {i} => ?_
    show ((g.vertices.insert v.id v).insert w.id w)[i]? = (g.vertices.insert w.id w)[i]?
    simp only [ExtTreeMap.getElem?_insert, hid]
    split_ifs <;> rfl

theorem Coherent.insertVertex_self (h : g.Coherent) {v : Vertex} (hv : v ∈ allVertices g) :
    g.insertVertex v = g := by
  refine ext_of_coherent (h.insertVertex v) h rfl ?_ rfl ?_ rfl rfl rfl rfl
  · exact Nat.max_eq_left (h.vertex_id_lt hv)
  · refine ExtTreeMap.ext_getElem? fun {i} => ?_
    show (g.vertices.insert v.id v)[i]? = g.vertices[i]?
    rw [ExtTreeMap.getElem?_insert]
    split_ifs with hi
    · rw [← Nat.compare_eq_eq.1 hi]
      exact (h.mem_allVertices.1 hv).symm
    · rfl

/-! ## Entities -/

def overwrite (g : Graph) (v : Vertex) (ps : Properties) : Graph :=
  g.insertVertex { v with properties := merge v.properties (storedProperties ps) }

def upsert (g : Graph) (e : Entity) : Graph :=
  match vertexWith? g Key.guid e.guid with
  | some v => g.overwrite v e.properties
  | none => g.addVertex e.type ((storedProperties e.properties).insert Key.guid e.guid)

theorem allEdges_upsert (g : Graph) (entity : Entity) :
    allEdges (g.upsert entity) = allEdges g := by
  unfold upsert
  split <;> rfl

/-! ## Relationships -/

def connect (g : Graph) (u v : Vertex) (r : Relationship) : Graph :=
  if hasEdge g u.id r.type v.id then g
  else g.addEdge r.type u.id v.id ((storedProperties r.properties).insert Key.guid r.guid)

end Graph

namespace Transaction.WellFormed

variable {t : Transaction}

theorem exists_overwrite (h : t.WellFormed) {v : Vertex} (hv : v ∈ allVertices t.commit)
    (ps : Properties) : ∃ t', Buffer.overwrite v.id ps t = .ok t' ∧ t'.WellFormed
      ∧ t'.base = t.base ∧ t'.commit = t.commit.overwrite v ps := by
  suffices ∀ (xs : List (String × String)) (t : Transaction) (v : Vertex), t.WellFormed →
      v ∈ allVertices t.commit → ∃ t', xs.foldlM (fun t p => t.setProperty v.id p.1 p.2) t = .ok t'
        ∧ t'.WellFormed ∧ t'.base = t.base ∧ t'.commit = t.commit.insertVertex
          { v with properties := xs.foldl (fun ps p => ps.insert p.1 p.2) v.properties } from
    this (storedProperties ps).toList t v h hv
  intro xs
  induction xs with
  | nil =>
    intro t v h hv
    exact ⟨t, rfl, h, rfl, (h.coherent_commit.insertVertex_self hv).symm⟩
  | cons x xs ih =>
    intro t v h hv
    obtain ⟨t₁, hset, hwf₁, hbase₁, hcommit₁⟩ := h.setProperty hv x.1 x.2
    let w : Vertex := { v with properties := v.properties.insert x.1 x.2 }
    have hw : w ∈ allVertices t₁.commit := by
      rw [hcommit₁]
      exact h.coherent_commit.mem_insertVertex.2 (.inl rfl)
    obtain ⟨t₂, hfold, hwf₂, hbase₂, hcommit₂⟩ := ih t₁ w hwf₁ hw
    refine ⟨t₂, ?_, hwf₂, hbase₂.trans hbase₁, ?_⟩
    · rw [List.foldlM_cons, bind_of_ok hset]
      exact hfold
    · rw [hcommit₂, hcommit₁]
      exact h.coherent_commit.insertVertex_insertVertex rfl

/-- An upsert does not fail, and leaves a vertex with the guid. -/
theorem exists_upsert (h : t.WellFormed) (e : Entity) :
    ∃ v t', Buffer.upsert e t = .ok (v.id, t') ∧ t'.WellFormed ∧ t'.base = t.base
      ∧ t'.commit = t.commit.upsert e ∧ v ∈ allVertices t'.commit ∧ v.guid? = some e.guid := by
  unfold Buffer.upsert Graph.upsert
  rw [← h.vertexWith?_commit]
  rcases hold : vertexWith? t.commit Key.guid e.guid with _ | v
  · let ps := (storedProperties e.properties).insert Key.guid e.guid
    have hcommit := h.commit_addVertex e.type ps
    refine ⟨⟨t.commit.nextVertex, e.type, ps⟩, (t.addVertex e.type ps).2,
      congrArg Except.ok (Prod.ext (h.addVertex_fst _ _) rfl), h.addVertex _ _, rfl, hcommit, ?_,
      ExtTreeMap.getElem?_insert_self⟩
    rw [hcommit, h.coherent_commit.allVertices_addVertex]
    exact List.mem_append_right _ List.mem_cons_self
  · obtain ⟨hv, hguid⟩ := h.coherent_commit.mem_of_vertexWith? hold
    obtain ⟨t', hover, hwf, hbase, hcommit⟩ := h.exists_overwrite hv e.properties
    refine ⟨{ v with properties := merge v.properties (storedProperties e.properties) }, t',
      bind_of_ok (lift_of_ok hover) _, hwf, hbase, hcommit, ?_, ?_⟩
    · rw [hcommit]
      exact h.coherent_commit.mem_insertVertex.2 (.inl rfl)
    · show (merge v.properties (storedProperties e.properties))[Key.guid]? = some e.guid
      rw [getElem?_merge, getElem?_storedProperties_guid, Option.none_or]
      exact hguid

end Transaction.WellFormed

/-! ## Events -/

section Events

variable {buffer : Graph}

theorem exists_apply_entity (h : buffer.WellFormed) (e : Entity) :
    ∃ v t, Buffer.upsert e buffer.begin = .ok (v.id, t) ∧ t.WellFormed
      ∧ t.commit = buffer.upsert e ∧ v ∈ allVertices t.commit ∧ v.guid? = some e.guid := by
  obtain ⟨v, t, hup, hwf, -, hcommit, hv, hguid⟩ := (Transaction.wellFormed_begin h).exists_upsert e
  rw [Transaction.commit_begin] at hcommit
  exact ⟨v, t, hup, hwf, hcommit, hv, hguid⟩

theorem apply_newEntity (h : buffer.WellFormed) (e : Entity) :
    Buffer.apply buffer (.newEntity e) = .ok ([], buffer.upsert e) := by
  obtain ⟨v, t, hup, -, hcommit, -⟩ := exists_apply_entity h e
  rw [← hcommit]
  exact bind_of_ok (a := ([], t)) (bind_of_ok hup _) _

theorem apply_updatedEntity (h : buffer.WellFormed) (e : Entity) :
    Buffer.apply buffer (.updatedEntity e) = .ok ([], buffer.upsert e) :=
  apply_newEntity h e

/-- The fragments of a process context refer to its process by guid, and by the name it has now. -/
theorem apply_processContext (h : buffer.WellFormed) (p : Entity) (ms : List ColumnMapping) :
    ∃ v ∈ allVertices (buffer.upsert p), v.guid? = some p.guid
      ∧ Buffer.apply buffer (.processContext p ms)
        = .ok (ms.map fun m => ⟨m.input, m.output, ⟨p.guid, v.displayName?⟩⟩, buffer.upsert p) := by
  obtain ⟨v, t, hup, hwf, hcommit, hv, hguid⟩ := exists_apply_entity h p
  have hreq : requireVertex t v.id = .ok v := by
    rw [← hwf.requireVertex_commit]
    exact hwf.coherent_commit.requireVertex_of_mem hv
  rw [← hcommit]
  refine ⟨v, hv, hguid, bind_of_ok (a := (_, t)) ((bind_of_ok hup _).trans
    ((bind_of_ok (lift_of_ok hreq) _).trans ?_)) _⟩
  simp only [ProcessRef.ofVertex?, hguid]
  rfl

theorem vertexWith?_begin (h : buffer.WellFormed) (key value : String) :
    vertexWith? buffer.begin key value = vertexWith? buffer key value := by
  rw [← (Transaction.wellFormed_begin h).vertexWith?_commit, Transaction.commit_begin]

/-- With both ends at hand a relationship is an edge, unless there is one of its type. -/
theorem relate_of_ends (h : buffer.WellFormed) {r : Relationship} {u v : Vertex}
    (hone : vertexWith? buffer Key.guid r.endOne = some u)
    (htwo : vertexWith? buffer Key.guid r.endTwo = some v) :
    relate r buffer.begin = (do
      if hasEdge buffer u.id r.type v.id then return buffer.begin
      let (_, t) ← buffer.begin.addEdge r.type u.id v.id
        ((storedProperties r.properties).insert Key.guid r.guid)
      return t) := by
  have hedge := (Transaction.wellFormed_begin h).hasEdge_commit u.id r.type v.id
  rw [Transaction.commit_begin] at hedge
  rw [hedge]
  unfold relate endVertex
  rw [vertexWith?_begin h, hone, vertexWith?_begin h, htwo]
  rfl

/-- A relationship is refused for an unknown end only, and changes nothing where it is known. -/
theorem apply_newRelationship (h : buffer.WellFormed) (r : Relationship) :
    Buffer.apply buffer (.newRelationship r)
      = match vertexWith? buffer Key.guid r.endOne, vertexWith? buffer Key.guid r.endTwo with
        | none, _ => .error (.notFound .applyRelationship r.endOne)
        | some _, none => .error (.notFound .applyRelationship r.endTwo)
        | some u, some v => .ok ([], buffer.connect u v r) := by
  have hcommit := Transaction.commit_begin buffer
  have happly : Buffer.apply buffer (.newRelationship r)
      = (relate r buffer.begin).map fun t => ([], t.commit) := by
    simp only [Buffer.apply, applyTo]
    rcases relate r buffer.begin with _ | t <;> rfl
  rw [happly]
  rcases hone : vertexWith? buffer Key.guid r.endOne with _ | u
  · unfold relate endVertex
    rw [vertexWith?_begin h, hone]
    rfl
  rcases htwo : vertexWith? buffer Key.guid r.endTwo with _ | v
  · unfold relate endVertex
    rw [vertexWith?_begin h, hone, vertexWith?_begin h, htwo]
    rfl
  simp only [relate_of_ends h hone htwo, Graph.connect]
  split_ifs
  · exact congrArg (fun g => Except.ok ([], g)) hcommit
  · obtain ⟨t', hadd, -, -, hcommit'⟩ := (Transaction.wellFormed_begin h).addEdge
      (hcommit ▸ (h.mem_of_vertexWith? hone).1) (hcommit ▸ (h.mem_of_vertexWith? htwo).1) r.type
      ((storedProperties r.properties).insert Key.guid r.guid)
    rw [hcommit] at hcommit'
    rw [bind_of_ok (lift_of_ok hadd), ← hcommit']
    rfl

end Events

end Lineage
