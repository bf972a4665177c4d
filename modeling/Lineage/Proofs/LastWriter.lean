import Lineage.Proofs.Recording

/-!
# The last writer wins

In the buffer graph every vertex has a guid of its own (`Graph.Identified`), and the value of a
property is the one the last event for it gave (`value_apply`). Events that are known already change
values alone (`apply_known`), so running through a list of events once more ends where the first run
did (`eq_of_sameShape`).
-/

namespace Lineage

open Std Buffer

namespace Graph

/-- Every vertex has a guid, and no two have the same. -/
structure Identified (g : Graph) : Prop extends WellFormed g where
  exists_guid : ∀ v ∈ allVertices g, ∃ n, v.guid? = some n
  guid_unique : ∀ u ∈ allVertices g, ∀ v ∈ allVertices g, u.guid? = v.guid? → u = v

theorem identified_empty (name : String) : (empty name).Identified where
  toWellFormed := wellFormed_empty name
  exists_guid v hv := by simp at hv
  guid_unique v hv := by simp at hv

/-- The value of a property of the vertex with a guid. -/
def value (g : Graph) (n k : String) : Option String :=
  (vertexWith? g Key.guid n).bind fun v => v.property? k

/-- Vertices stay under their ids with label and guid, and edges stay. -/
structure Keeps (g g' : Graph) : Prop where
  vertex : ∀ v ∈ allVertices g, ∃ v' ∈ allVertices g', v'.id = v.id ∧ v'.label = v.label
    ∧ v'.guid? = v.guid?
  edges : allEdges g <+: allEdges g'

/-- Two graphs differ in the properties of vertices at most, and not in their guids. -/
structure SameShape (g g' : Graph) : Prop where
  name_eq : g.name = g'.name
  nextVertex_eq : g.nextVertex = g'.nextVertex
  nextEdge_eq : g.nextEdge = g'.nextEdge
  edges_eq : g.edges = g'.edges
  leaving_eq : g.leaving = g'.leaving
  entering_eq : g.entering = g'.entering
  links_eq : g.links = g'.links
  vertices_eq : ∀ i : VertexId, g.vertices[i]?.map (fun v => (v.label, v.guid?))
    = g'.vertices[i]?.map fun v => (v.label, v.guid?)

variable {g g' : Graph}

theorem Keeps.refl (g : Graph) : Keeps g g :=
  ⟨fun v hv => ⟨v, hv, rfl, rfl, rfl⟩, List.prefix_rfl⟩

theorem Keeps.trans {g'' : Graph} (h : Keeps g g') (h' : Keeps g' g'') : Keeps g g'' where
  vertex v hv := by
    obtain ⟨v', hv', hid, hlabel, hguid⟩ := h.vertex v hv
    obtain ⟨v'', hv'', hid', hlabel', hguid'⟩ := h'.vertex v' hv'
    exact ⟨v'', hv'', hid'.trans hid, hlabel'.trans hlabel, hguid'.trans hguid⟩
  edges := h.edges.trans h'.edges

theorem SameShape.refl (g : Graph) : SameShape g g :=
  ⟨rfl, rfl, rfl, rfl, rfl, rfl, rfl, fun _ => rfl⟩

theorem SameShape.trans {g'' : Graph} (h : SameShape g g') (h' : SameShape g' g'') :
    SameShape g g'' :=
  ⟨h.name_eq.trans h'.name_eq, h.nextVertex_eq.trans h'.nextVertex_eq,
    h.nextEdge_eq.trans h'.nextEdge_eq, h.edges_eq.trans h'.edges_eq,
    h.leaving_eq.trans h'.leaving_eq, h.entering_eq.trans h'.entering_eq,
    h.links_eq.trans h'.links_eq, fun i => (h.vertices_eq i).trans (h'.vertices_eq i)⟩

namespace Identified

theorem vertexWith?_eq_some_iff (h : g.Identified) {n : String} {v : Vertex} :
    vertexWith? g Key.guid n = some v ↔ v ∈ allVertices g ∧ v.guid? = some n := by
  refine ⟨h.mem_of_vertexWith?, fun ⟨hv, hn⟩ => ?_⟩
  obtain ⟨u, hu⟩ := h.exists_vertexWith? hv hn
  obtain ⟨humem, hun⟩ := h.mem_of_vertexWith? hu
  rw [hu, h.guid_unique u humem v hv (hun.trans hn.symm)]

theorem value_of_mem (h : g.Identified) {v : Vertex} {n : String} (hv : v ∈ allVertices g)
    (hn : v.guid? = some n) (k : String) : g.value n k = v.property? k := by
  rw [value, h.vertexWith?_eq_some_iff.2 ⟨hv, hn⟩, Option.bind_some]

theorem value_of_forall_ne (h : g.Identified) {n : String}
    (hn : ∀ v ∈ allVertices g, v.guid? ≠ some n) (k : String) : g.value n k = none := by
  rw [value, h.vertexWith?_eq_none_iff.2 hn, Option.bind_none]

/-- Graphs of one shape that agree on all values are the same. -/
theorem eq_of_sameShape (h : g.Identified) (h' : g'.Identified) (hs : SameShape g g')
    (hvalue : ∀ n k, k ≠ Key.guid → g.value n k = g'.value n k) : g = g' := by
  refine ext_of_coherent h.toCoherent h'.toCoherent hs.name_eq hs.nextVertex_eq hs.nextEdge_eq ?_
    hs.edges_eq hs.leaving_eq hs.entering_eq hs.links_eq
  refine ExtTreeMap.ext_getElem? fun {i} => ?_
  have hi := hs.vertices_eq i
  rcases hv : g.vertices[i]? with _ | v <;> rcases hv' : g'.vertices[i]? with _ | v' <;>
    rw [hv, hv'] at hi
  · simp at hi
  · simp at hi
  · simp only [Option.map_some, Option.some.injEq, Prod.mk.injEq] at hi
    obtain ⟨hmem, hid⟩ := h.vertex?_eq_some_iff.1 hv
    obtain ⟨hmem', hid'⟩ := h'.vertex?_eq_some_iff.1 hv'
    obtain ⟨n, hn⟩ := h.exists_guid v hmem
    have hps : v.properties = v'.properties := by
      refine ExtTreeMap.ext_getElem? fun {k} => ?_
      by_cases hk : k = Key.guid
      · rw [hk]
        exact hi.2
      · have := hvalue n k hk
        rw [h.value_of_mem hmem hn, h'.value_of_mem hmem' (hi.2 ▸ hn)] at this
        exact this
    cases v
    cases v'
    simp only [Option.some.injEq, Vertex.mk.injEq]
    exact ⟨hid.trans hid'.symm, hi.1, hps⟩

/-! ## Overwriting -/

section Overwrite

variable {v : Vertex} (hv : v ∈ allVertices g) (ps : Properties)

theorem guid?_merge (v : Vertex) (ps : Properties) :
    Vertex.guid? { v with properties := merge v.properties (storedProperties ps) } = v.guid? := by
  show (merge v.properties (storedProperties ps))[Key.guid]? = v.properties[Key.guid]?
  rw [getElem?_merge, getElem?_storedProperties_guid, Option.none_or]

include hv

theorem sameShape_overwrite (h : g.Identified) : SameShape g (g.overwrite v ps) where
  name_eq := rfl
  nextVertex_eq := (Nat.max_eq_left (h.vertex_id_lt hv)).symm
  nextEdge_eq := rfl
  edges_eq := rfl
  leaving_eq := rfl
  entering_eq := rfl
  links_eq := rfl
  vertices_eq i := by
    show _ = Option.map _ (g.vertices.insert v.id _)[i]?
    rw [ExtTreeMap.getElem?_insert]
    split_ifs with hi
    · rw [← Nat.compare_eq_eq.1 hi, show g.vertices[v.id]? = some v from h.mem_allVertices.1 hv,
        Option.map_some, Option.map_some, guid?_merge]
    · rfl

theorem keeps_overwrite (h : g.Identified) : Keeps g (g.overwrite v ps) where
  vertex u hu := by
    by_cases hid : u.id = v.id
    · rw [h.eq_of_vertex_id hu hv hid]
      exact ⟨_, h.mem_insertVertex.2 (.inl rfl), rfl, rfl, guid?_merge v ps⟩
    · exact ⟨u, h.mem_insertVertex.2 (.inr ⟨hu, hid⟩), rfl, rfl, rfl⟩
  edges := List.prefix_rfl

theorem overwrite (h : g.Identified) : (g.overwrite v ps).Identified where
  toCoherent := h.insertVertex _
  closed e he := by
    obtain ⟨⟨u, hu, hus⟩, w, hw, hwt⟩ := h.closed e he
    obtain ⟨u', hu', hid, -⟩ := (h.keeps_overwrite hv ps).vertex u hu
    obtain ⟨w', hw', hid', -⟩ := (h.keeps_overwrite hv ps).vertex w hw
    exact ⟨⟨u', hu', hid.trans hus⟩, w', hw', hid'.trans hwt⟩
  exists_guid u hu := by
    rcases h.mem_insertVertex.1 hu with rfl | ⟨hu, -⟩
    · rw [guid?_merge]
      exact h.exists_guid v hv
    · exact h.exists_guid u hu
  guid_unique u hu w hw heq := by
    rcases h.mem_insertVertex.1 hu with rfl | ⟨hu, huid⟩ <;>
      rcases h.mem_insertVertex.1 hw with rfl | ⟨hw, hwid⟩
    · rfl
    · rw [guid?_merge] at heq
      exact absurd (congrArg Vertex.id (h.guid_unique v hv w hw heq)).symm hwid
    · rw [guid?_merge] at heq
      exact absurd (congrArg Vertex.id (h.guid_unique u hu v hv heq)) huid
    · exact h.guid_unique u hu w hw heq

theorem value_overwrite (h : g.Identified) {n : String} (hn : v.guid? = some n) (m k : String) :
    (g.overwrite v ps).value m k
      = (if n = m then (storedProperties ps)[k]? else none).or (g.value m k) := by
  have h' := h.overwrite hv ps
  split_ifs with hm
  · subst hm
    rw [h'.value_of_mem (h.mem_insertVertex.2 (.inl rfl)) ((guid?_merge v ps).trans hn),
      h.value_of_mem hv hn]
    exact getElem?_merge _ _ _
  · rw [Option.none_or]
    by_cases hu : ∃ u ∈ allVertices g, u.guid? = some m
    · obtain ⟨u, hu, hum⟩ := hu
      have hid : u.id ≠ v.id := by
        intro heq
        rw [h.eq_of_vertex_id hu hv heq, hn] at hum
        exact hm (Option.some.inj hum)
      rw [h'.value_of_mem (h.mem_insertVertex.2 (.inr ⟨hu, hid⟩)) hum, h.value_of_mem hu hum]
    · rw [h.value_of_forall_ne fun u humem hum => hu ⟨u, humem, hum⟩, h'.value_of_forall_ne]
      intro u humem hum
      rcases h.mem_insertVertex.1 humem with rfl | ⟨humem, -⟩
      · rw [guid?_merge, hn] at hum
        exact hm (Option.some.inj hum)
      · exact hu ⟨u, humem, hum⟩

end Overwrite

/-! ## New vertices and edges -/

theorem addVertex (h : g.Identified) {n : String} (label : String) {ps : Properties}
    (hnone : vertexWith? g Key.guid n = none) (hn : ps[Key.guid]? = some n) :
    (g.addVertex label ps).Identified where
  toWellFormed := h.toWellFormed.addVertex label ps
  exists_guid u hu := by
    rw [h.allVertices_addVertex] at hu
    rcases List.mem_append.1 hu with hu | hu
    · exact h.exists_guid u hu
    · rw [List.mem_singleton.1 hu]
      exact ⟨n, hn⟩
  guid_unique u hu w hw heq := by
    have hold := h.vertexWith?_eq_none_iff.1 hnone
    rw [h.allVertices_addVertex] at hu hw
    rcases List.mem_append.1 hu with hu | hu <;> rcases List.mem_append.1 hw with hw | hw
    · exact h.guid_unique u hu w hw heq
    · rw [List.mem_singleton.1 hw] at heq
      exact absurd (heq.trans hn) (hold u hu)
    · rw [List.mem_singleton.1 hu] at heq
      exact absurd (heq.symm.trans hn) (hold w hw)
    · rw [List.mem_singleton.1 hu, List.mem_singleton.1 hw]

theorem keeps_addVertex (h : g.Identified) (label : String) (ps : Properties) :
    Keeps g (g.addVertex label ps) where
  vertex v hv := by
    rw [h.allVertices_addVertex]
    exact ⟨v, List.mem_append_left _ hv, rfl, rfl, rfl⟩
  edges := List.prefix_rfl

theorem value_addVertex (h : g.Identified) {n : String} {label : String} {ps : Properties}
    (hnone : vertexWith? g Key.guid n = none) (hn : ps[Key.guid]? = some n) (m k : String) :
    (g.addVertex label ps).value m k = (if n = m then ps[k]? else none).or (g.value m k) := by
  have h' := h.addVertex label hnone hn
  have hold := h.vertexWith?_eq_none_iff.1 hnone
  split_ifs with hm
  · subst hm
    have hnew : (⟨g.nextVertex, label, ps⟩ : Vertex) ∈ allVertices (g.addVertex label ps) := by
      rw [h.allVertices_addVertex]
      exact List.mem_append_right _ List.mem_cons_self
    rw [h'.value_of_mem hnew hn, h.value_of_forall_ne hold, Option.or_none]
    rfl
  · rw [Option.none_or]
    by_cases hu : ∃ u ∈ allVertices g, u.guid? = some m
    · obtain ⟨u, hu, hum⟩ := hu
      have hu' : u ∈ allVertices (g.addVertex label ps) := by
        rw [h.allVertices_addVertex]
        exact List.mem_append_left _ hu
      rw [h'.value_of_mem hu' hum, h.value_of_mem hu hum]
    · rw [h.value_of_forall_ne fun u humem hum => hu ⟨u, humem, hum⟩, h'.value_of_forall_ne]
      intro u humem hum
      rw [h.allVertices_addVertex] at humem
      rcases List.mem_append.1 humem with humem | humem
      · exact hu ⟨u, humem, hum⟩
      · rw [List.mem_singleton.1 humem] at hum
        exact hm (Option.some.inj (hn.symm.trans hum))

theorem addEdge (h : g.Identified) {u v : Vertex} (hu : u ∈ allVertices g) (hv : v ∈ allVertices g)
    (label : String) (ps : Properties) : (g.addEdge label u.id v.id ps).Identified where
  toWellFormed := h.toWellFormed.addEdge hu hv label ps
  exists_guid := h.exists_guid
  guid_unique := h.guid_unique

/-! ## Entities and relationships -/

theorem upsert (h : g.Identified) (e : Entity) : (g.upsert e).Identified := by
  unfold Graph.upsert
  split
  · next v hv => exact h.overwrite (h.mem_of_vertexWith? hv).1 e.properties
  · next hnone => exact h.addVertex _ hnone ExtTreeMap.getElem?_insert_self

theorem keeps_upsert (h : g.Identified) (e : Entity) : Keeps g (g.upsert e) := by
  unfold Graph.upsert
  split
  · next v hv => exact h.keeps_overwrite (h.mem_of_vertexWith? hv).1 e.properties
  · exact h.keeps_addVertex _ _

theorem sameShape_upsert (h : g.Identified) {e : Entity}
    (hknown : ∃ v ∈ allVertices g, v.guid? = some e.guid) : SameShape g (g.upsert e) := by
  obtain ⟨v, hv, hn⟩ := hknown
  rw [Graph.upsert, h.vertexWith?_eq_some_iff.2 ⟨hv, hn⟩]
  exact h.sameShape_overwrite hv e.properties

theorem exists_mem_upsert (h : g.Identified) (e : Entity) :
    ∃ v ∈ allVertices (g.upsert e), v.guid? = some e.guid := by
  unfold Graph.upsert
  split
  · next v hv =>
    obtain ⟨hv, hn⟩ := h.mem_of_vertexWith? hv
    exact ⟨_, h.mem_insertVertex.2 (.inl rfl), (guid?_merge v e.properties).trans hn⟩
  · let ps := (storedProperties e.properties).insert Key.guid e.guid
    refine ⟨⟨g.nextVertex, e.type, ps⟩, ?_, ExtTreeMap.getElem?_insert_self⟩
    rw [h.allVertices_addVertex]
    exact List.mem_append_right _ List.mem_cons_self

theorem value_upsert (h : g.Identified) (e : Entity) (n : String) {k : String}
    (hk : k ≠ Key.guid) : (g.upsert e).value n k
      = (if e.guid = n then (storedProperties e.properties)[k]? else none).or (g.value n k) := by
  unfold Graph.upsert
  split
  · next v hv =>
    obtain ⟨hv, hn⟩ := h.mem_of_vertexWith? hv
    exact h.value_overwrite hv e.properties hn n k
  · next hnone =>
    rw [h.value_addVertex hnone ExtTreeMap.getElem?_insert_self,
      Properties.getElem?_insert_of_ne hk]

theorem connect (h : g.Identified) {u v : Vertex} (hu : u ∈ allVertices g) (hv : v ∈ allVertices g)
    (r : Relationship) : (g.connect u v r).Identified := by
  unfold Graph.connect
  split_ifs
  · exact h
  · exact h.addEdge hu hv _ _

theorem keeps_connect (h : g.Identified) (u v : Vertex) (r : Relationship) :
    Keeps g (g.connect u v r) := by
  unfold Graph.connect
  split_ifs
  · exact .refl g
  · exact ⟨fun w hw => ⟨w, hw, rfl, rfl, rfl⟩, (Grows.addEdge h.toCoherent _ _ _ _).edges⟩

theorem exists_mem_connect (h : g.Identified) (u v : Vertex) (r : Relationship) :
    ∃ e ∈ allEdges (g.connect u v r), e.source = u.id ∧ e.label = r.type ∧ e.target = v.id := by
  unfold Graph.connect
  split_ifs with hold
  · exact h.hasEdge_iff.1 hold
  · rw [h.allEdges_addEdge]
    exact ⟨_, List.mem_append_right _ List.mem_cons_self, rfl, rfl, rfl⟩

theorem vertexWith?_connect (h : g.Identified) {u v : Vertex} (hu : u ∈ allVertices g)
    (hv : v ∈ allVertices g) (r : Relationship) (n : String) :
    vertexWith? (g.connect u v r) Key.guid n = vertexWith? g Key.guid n := by
  have h' := h.connect hu hv r
  have hvertices : allVertices (g.connect u v r) = allVertices g := by
    unfold Graph.connect
    split_ifs <;> rfl
  rw [h'.vertexWith?_eq, h.vertexWith?_eq, hvertices]

end Identified

end Graph

/-! ## Events -/

namespace Event

/-- The entity that an event upserts. -/
def entity? : Event → Option Entity
  | newEntity e | updatedEntity e => some e
  | processContext p _ => some p
  | newRelationship _ => none

/-- The value that an event gives a property of the vertex with a guid. -/
def assigned (e : Event) (n k : String) : Option String :=
  e.entity?.bind fun entity =>
    if entity.guid = n then (storedProperties entity.properties)[k]? else none

/-- The fragments that an event carries, where its process goes by a name. -/
def fragments (name : Option String) : Event → List Fragment
  | processContext p ms => ms.map fun m => ⟨m.input, m.output, ⟨p.guid, name⟩⟩
  | _ => []

end Event

/-- The value that the last of some events gives. -/
def assignedLast (n k : String) : List Event → Option String
  | [] => none
  | e :: es => (assignedLast n k es).or (e.assigned n k)

/-- The vertices and the edge that an event is about are there. -/
def Graph.Knows (g : Graph) : Event → Prop
  | .newEntity e | .updatedEntity e | .processContext e _ =>
    ∃ v ∈ allVertices g, v.guid? = some e.guid
  | .newRelationship r => ∃ u ∈ allVertices g, ∃ v ∈ allVertices g, u.guid? = some r.endOne
    ∧ v.guid? = some r.endTwo
    ∧ ∃ e ∈ allEdges g, e.source = u.id ∧ e.label = r.type ∧ e.target = v.id

theorem Graph.Keeps.knows {g g' : Graph} (h : g.Keeps g') : ∀ {e : Event}, g.Knows e → g'.Knows e
  | .newEntity _, ⟨v, hv, hn⟩ | .updatedEntity _, ⟨v, hv, hn⟩
  | .processContext _ _, ⟨v, hv, hn⟩ => by
    obtain ⟨v', hv', -, -, hguid⟩ := h.vertex v hv
    exact ⟨v', hv', hguid.trans hn⟩
  | .newRelationship _, ⟨u, hu, v, hv, hm, hn, e, he, hes, hel, het⟩ => by
    obtain ⟨u', hu', hid, -, hguid⟩ := h.vertex u hu
    obtain ⟨v', hv', hid', -, hguid'⟩ := h.vertex v hv
    exact ⟨u', hu', v', hv', hguid.trans hm, hguid'.trans hn, e, h.edges.subset he,
      hes.trans hid.symm, hel, het.trans hid'.symm⟩

theorem apply_entity {g : Graph} (h : g.WellFormed) {e : Event} {entity : Entity}
    (he : e.entity? = some entity) :
    ∃ name, Buffer.apply g e = .ok (e.fragments name, g.upsert entity) := by
  cases e with
  | newEntity e' =>
    rw [← Option.some.inj he]
    exact ⟨none, apply_newEntity h e'⟩
  | updatedEntity e' =>
    rw [← Option.some.inj he]
    exact ⟨none, apply_updatedEntity h e'⟩
  | newRelationship r => cases he
  | processContext p ms =>
    obtain ⟨v, -, -, happly⟩ := apply_processContext h p ms
    rw [← Option.some.inj he]
    exact ⟨v.displayName?, happly⟩

theorem Graph.knows_iff_of_entity {g : Graph} {e : Event} {entity : Entity}
    (he : e.entity? = some entity) :
    g.Knows e ↔ ∃ v ∈ allVertices g, v.guid? = some entity.guid := by
  cases e <;> cases he <;> rfl

theorem Event.assigned_of_entity {e : Event} {entity : Entity} (he : e.entity? = some entity)
    (n k : String) : e.assigned n k
      = if entity.guid = n then (storedProperties entity.properties)[k]? else none := by
  rw [assigned, he, Option.bind_some]

/-- An event that is let in is known from then on, and gives the values it assigns. -/
theorem apply_cases {g : Graph} (h : g.Identified) (e : Event) :
    (∃ err, Buffer.apply g e = .error err)
      ∨ ∃ name g', Buffer.apply g e = .ok (e.fragments name, g') ∧ g'.Identified ∧ g.Keeps g'
        ∧ g'.Knows e
        ∧ ∀ n k, k ≠ Key.guid → g'.value n k = (e.assigned n k).or (g.value n k) := by
  rcases he : e.entity? with _ | entity
  · cases e with
    | newRelationship r =>
      rw [apply_newRelationship h.toWellFormed]
      rcases hone : vertexWith? g Key.guid r.endOne with _ | u
      · exact .inl ⟨_, rfl⟩
      rcases htwo : vertexWith? g Key.guid r.endTwo with _ | v
      · exact .inl ⟨_, rfl⟩
      obtain ⟨hu, hun⟩ := h.mem_of_vertexWith? hone
      obtain ⟨hv, hvn⟩ := h.mem_of_vertexWith? htwo
      have h' := h.connect hu hv r
      refine .inr ⟨none, _, rfl, h', h.keeps_connect u v r, ⟨u, ?_, v, ?_, hun, hvn,
        h.exists_mem_connect u v r⟩, fun n k _ => ?_⟩
      · exact (h'.mem_of_vertexWith? ((h.vertexWith?_connect hu hv r _).trans hone)).1
      · exact (h'.mem_of_vertexWith? ((h.vertexWith?_connect hu hv r _).trans htwo)).1
      · rw [Graph.value, h.vertexWith?_connect hu hv]
        rfl
    | newEntity => cases he
    | updatedEntity => cases he
    | processContext => cases he
  · obtain ⟨name, happly⟩ := apply_entity h.toWellFormed he
    refine .inr ⟨name, _, happly, h.upsert entity, h.keeps_upsert entity, ?_, fun n k hk => ?_⟩
    · exact (Graph.knows_iff_of_entity he).2 (h.exists_mem_upsert entity)
    · rw [h.value_upsert entity n hk, Event.assigned_of_entity he]

/-- An event that is known changes values alone. -/
theorem apply_known {g : Graph} (h : g.Identified) {e : Event} (hknown : g.Knows e) :
    ∃ name g', Buffer.apply g e = .ok (e.fragments name, g') ∧ g'.Identified ∧ g.SameShape g'
      ∧ ∀ n k, k ≠ Key.guid → g'.value n k = (e.assigned n k).or (g.value n k) := by
  rcases he : e.entity? with _ | entity
  · cases e with
    | newRelationship r =>
      obtain ⟨u, hu, v, hv, hun, hvn, hedge⟩ := hknown
      refine ⟨none, g, ?_, h, .refl g, fun n k _ => rfl⟩
      rw [apply_newRelationship h.toWellFormed, h.vertexWith?_eq_some_iff.2 ⟨hu, hun⟩,
        h.vertexWith?_eq_some_iff.2 ⟨hv, hvn⟩]
      simp only [Graph.connect, h.hasEdge_iff.2 hedge, if_true]
      rfl
    | newEntity => cases he
    | updatedEntity => cases he
    | processContext => cases he
  · obtain ⟨name, happly⟩ := apply_entity h.toWellFormed he
    refine ⟨name, _, happly, h.upsert entity,
      h.sameShape_upsert ((Graph.knows_iff_of_entity he).1 hknown), fun n k hk => ?_⟩
    rw [h.value_upsert entity n hk, Event.assigned_of_entity he]

end Lineage
