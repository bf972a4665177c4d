import Lineage.Proofs.Roles

/-!
# The fold of the accepted events

Run through a list of events, those that the buffer graph lets in decide all that is in it
(`Graph.Records`): a vertex for each guid, with the type of the first entity and the last value of
each property, and an edge for each type and pair of ends, as the first relationship had it. One
event more keeps this so (`Graph.Records.apply`), hence it holds after any list of events
(`records_recordAll`).
-/

namespace Lineage

open Std Buffer

/-! ## Accepted events -/

/-- The events of a list that a run through it lets in. -/
def Buffer.letIn (g : Graph) : List Event → List Event
  | [] => []
  | e :: es => match Buffer.apply g e with
    | .ok (_, g') => e :: letIn g' es
    | .error _ => letIn g es

def Event.relationship? : Event → Option Relationship
  | newRelationship r => some r
  | _ => none

/-- The entities that some events upsert under a guid, in order. -/
def entitiesOf (n : String) (es : List Event) : List Entity :=
  (es.filterMap Event.entity?).filter (·.guid == n)

/-- The relationships that some events tell of, with a type and two ends, in order. -/
def relationshipsOf (type one two : String) (es : List Event) : List Relationship :=
  (es.filterMap Event.relationship?).filter fun r =>
    r.type == type && r.endOne == one && r.endTwo == two

/-- What the last of some entities that carries a property has for it. -/
def lastValue (property : String) (entities : List Entity) : Option String :=
  entities.reverse.findSome? (·.properties[property]?)

section Lists

variable {e : Event} (acc : List Event)

theorem entitiesOf_append {entity : Entity} (he : e.entity? = some entity) (n : String) :
    entitiesOf n (acc ++ [e])
      = if entity.guid = n then entitiesOf n acc ++ [entity] else entitiesOf n acc := by
  rw [entitiesOf, List.filterMap_append, List.filter_append]
  split_ifs with hn
  · simp [he, hn, entitiesOf]
  · simp [he, hn, entitiesOf]

theorem entitiesOf_append_of_none (he : e.entity? = none) (n : String) :
    entitiesOf n (acc ++ [e]) = entitiesOf n acc := by
  simp [entitiesOf, he]

theorem relationshipsOf_append_of_none (he : e.relationship? = none) (type one two : String) :
    relationshipsOf type one two (acc ++ [e]) = relationshipsOf type one two acc := by
  simp [relationshipsOf, he]

theorem head?_relationshipsOf_append (r : Relationship) (type one two : String) :
    (relationshipsOf type one two (acc ++ [.newRelationship r])).head?
      = (relationshipsOf type one two acc).head?.or
        (if r.type = type ∧ r.endOne = one ∧ r.endTwo = two then some r else none) := by
  rw [relationshipsOf, List.filterMap_append, List.filter_append, List.head?_append]
  split_ifs with hr
  · simp [Event.relationship?, hr, relationshipsOf]
  · simp only [List.filterMap_cons, Event.relationship?, List.filterMap_nil, relationshipsOf]
    rw [List.filter_cons_of_neg (by simpa [and_assoc] using hr), List.filter_nil, List.head?_nil]

theorem lastValue_append (property : String) (entities : List Entity) (entity : Entity) :
    lastValue property (entities ++ [entity])
      = entity.properties[property]?.or (lastValue property entities) := by
  rw [lastValue, List.reverse_append, List.reverse_singleton, List.singleton_append,
    List.findSome?_cons]
  cases entity.properties[property]? <;> rfl

end Lists

/-! ## Stored properties -/

theorem Key.ofEntity_injective {p q : String} (h : Key.ofEntity p = Key.ofEntity q) : p = q := by
  rwa [Key.ofEntity, Key.ofEntity, String.append_right_inj] at h

theorem getElem?_storedProperties_eq_some_iff {ps : Properties} {k x : String} :
    (storedProperties ps)[k]? = some x ↔ ∃ p, k = Key.ofEntity p ∧ ps[p]? = some x := by
  let xs := ps.toList.map fun p => (Key.ofEntity p.1, p.2)
  have hstored : storedProperties ps = xs.foldl (fun ps p => ps.insert p.1 p.2) ∅ := by
    rw [List.foldl_map]
    rfl
  have hdistinct : xs.Pairwise fun p q => p.1 ≠ q.1 := by
    refine List.pairwise_map.2 ((ExtTreeMap.distinct_keys_toList (t := ps)).imp fun h heq => h ?_)
    rw [Key.ofEntity_injective heq]
    exact compare_self
  have hmem : ∀ {v}, (k, v) ∈ xs ↔ ∃ p, k = Key.ofEntity p ∧ ps[p]? = some v := by
    intro v
    simp only [xs, List.mem_map, Prod.mk.injEq, Prod.exists,
      ExtTreeMap.mem_toList_iff_getElem?_eq_some]
    exact ⟨fun ⟨p, w, hw, hp, heq⟩ => ⟨p, hp.symm, heq ▸ hw⟩, fun ⟨p, hp, hv⟩ =>
      ⟨p, v, hv, hp.symm, rfl⟩⟩
  obtain ⟨hin, hout⟩ := getElem?_foldl_insert (k := k) xs ∅ hdistinct
  rw [hstored, ← hmem]
  by_cases hk : ∃ v, (k, v) ∈ xs
  · obtain ⟨v, hv⟩ := hk
    rw [hin hv]
    refine ⟨fun heq => Option.some.inj heq ▸ hv, fun hx => ?_⟩
    exact (hin hv).symm.trans (hin hx)
  · have hno : ∀ v, (k, v) ∉ xs := fun v hv => hk ⟨v, hv⟩
    rw [hout hno]
    simp [hno x]

theorem getElem?_storedProperties_ofEntity (ps : Properties) (p : String) :
    (storedProperties ps)[Key.ofEntity p]? = ps[p]? := by
  refine Option.ext fun x => getElem?_storedProperties_eq_some_iff.trans ?_
  exact ⟨fun ⟨q, hq, hx⟩ => Key.ofEntity_injective hq ▸ hx, fun hx => ⟨p, rfl, hx⟩⟩

/-- Properties that are a guid and the values of an instance, and nothing else. -/
def Stored (guid : String) (value : String → Option String) (ps : Properties) : Prop :=
  ∀ k x, ps[k]? = some x ↔ k = Key.guid ∧ x = guid ∨ ∃ p, k = Key.ofEntity p ∧ value p = some x

section Stored

variable {ps : Properties} {n : String} {value : String → Option String}

theorem Stored.guid_eq (h : Stored n value ps) : ps[Key.guid]? = some n :=
  (h _ _).2 (.inl ⟨rfl, rfl⟩)

theorem Stored.value_eq (h : Stored n value ps) (p : String) :
    ps[Key.ofEntity p]? = value p := by
  refine Option.ext fun x => ?_
  rw [h]
  refine ⟨?_, fun hx => .inr ⟨p, rfl, hx⟩⟩
  rintro (⟨hk, -⟩ | ⟨q, hq, hx⟩)
  · exact absurd hk (Key.ofEntity_ne_guid p)
  · exact Key.ofEntity_injective hq ▸ hx

theorem stored_insert (qs : Properties) (n : String) :
    Stored n (fun p => qs[p]?) ((storedProperties qs).insert Key.guid n) := by
  intro k x
  rw [← getElem?_storedProperties_eq_some_iff]
  by_cases hk : k = Key.guid
  · subst hk
    rw [ExtTreeMap.getElem?_insert_self, getElem?_storedProperties_guid]
    simp [eq_comm]
  · rw [Properties.getElem?_insert_of_ne hk]
    simp [hk]

theorem Stored.merge (h : Stored n value ps) (qs : Properties) :
    Stored n (fun p => qs[p]?.or (value p)) (merge ps (storedProperties qs)) := by
  intro k x
  rw [getElem?_merge]
  by_cases hk : ∃ p, k = Key.ofEntity p
  · obtain ⟨p, rfl⟩ := hk
    rw [getElem?_storedProperties_ofEntity, h.value_eq]
    refine ⟨fun hx => .inr ⟨p, rfl, hx⟩, ?_⟩
    rintro (⟨hk, -⟩ | ⟨q, hq, hx⟩)
    · exact absurd hk (Key.ofEntity_ne_guid p)
    · exact Key.ofEntity_injective hq ▸ hx
  · have hno : ∀ p, k ≠ Key.ofEntity p := fun p hp => hk ⟨p, hp⟩
    have hstored : (storedProperties qs)[k]? = none := by
      refine Option.eq_none_iff_forall_ne_some.2 fun y hy => ?_
      obtain ⟨p, hp, -⟩ := getElem?_storedProperties_eq_some_iff.1 hy
      exact hno p hp
    rw [hstored, Option.none_or, h]
    simp [hno]

end Stored

/-! ## One event more -/

/-- An edge runs between the vertices with two guids. -/
def Graph.Between (g : Graph) (e : Edge) (one two : String) : Prop :=
  ∃ u ∈ allVertices g, ∃ v ∈ allVertices g, u.guid? = some one ∧ v.guid? = some two
    ∧ e.source = u.id ∧ e.target = v.id

/-- A graph tells of some events all there is to know of the vertices and edges they are about, and
of nothing else. -/
structure Graph.Records (g : Graph) (acc : List Event) : Prop where
  vertex_exists : ∀ n first, (entitiesOf n acc).head? = some first →
    ∃ v ∈ allVertices g, v.guid? = some n
  vertex : ∀ v ∈ allVertices g, ∃ n first, (entitiesOf n acc).head? = some first
    ∧ v.label = first.type ∧ Stored n (fun p => lastValue p (entitiesOf n acc)) v.properties
  edge_exists : ∀ type one two first, (relationshipsOf type one two acc).head? = some first →
    ∃ e ∈ allEdges g, e.label = type ∧ g.Between e one two
  edge_unique : ∀ d ∈ allEdges g, ∀ e ∈ allEdges g, d.label = e.label → d.source = e.source →
    d.target = e.target → d = e
  edge : ∀ e ∈ allEdges g, ∃ one two first,
    (relationshipsOf e.label one two acc).head? = some first ∧ g.Between e one two
      ∧ Stored first.guid (fun p => first.properties[p]?) e.properties

namespace Graph

variable {g g' : Graph} {acc : List Event}

theorem Keeps.between (h : g.Keeps g') {e : Edge} {one two : String} :
    g.Between e one two → g'.Between e one two := by
  rintro ⟨u, hu, v, hv, hone, htwo, hsource, htarget⟩
  obtain ⟨u', hu', hid, -, hguid⟩ := h.vertex u hu
  obtain ⟨v', hv', hid', -, hguid'⟩ := h.vertex v hv
  exact ⟨u', hu', v', hv', hguid.trans hone, hguid'.trans htwo, hsource.trans hid.symm,
    htarget.trans hid'.symm⟩

theorem records_empty (name : String) : (empty name).Records [] where
  vertex_exists n first h := by simp [entitiesOf] at h
  vertex v hv := by simp at hv
  edge_exists type one two first h := by simp [relationshipsOf] at h
  edge_unique d hd := by simp at hd
  edge e he := by simp at he

/-- The vertices of an upsert are those with other guids, and one with the guid of the entity. -/
theorem Identified.mem_upsert (h : g.Identified) {entity : Entity} {v : Vertex}
    (hv : v ∈ allVertices (g.upsert entity)) :
    v ∈ allVertices g ∧ v.guid? ≠ some entity.guid
      ∨ (∃ w ∈ allVertices g, w.guid? = some entity.guid
        ∧ v = { w with properties := merge w.properties (storedProperties entity.properties) })
      ∨ (∀ w ∈ allVertices g, w.guid? ≠ some entity.guid) ∧ v.label = entity.type
        ∧ v.properties = (storedProperties entity.properties).insert Key.guid entity.guid := by
  unfold Graph.upsert at hv
  split at hv
  · next w hw =>
    obtain ⟨hwmem, hwn⟩ := h.mem_of_vertexWith? hw
    rcases h.mem_insertVertex.1 hv with rfl | ⟨hv, hid⟩
    · exact .inr (.inl ⟨w, hwmem, hwn, rfl⟩)
    · refine .inl ⟨hv, fun hn => hid ?_⟩
      rw [h.guid_unique v hv w hwmem (hn.trans hwn.symm)]
  · next hnone =>
    have hno := h.vertexWith?_eq_none_iff.1 hnone
    rw [h.allVertices_addVertex] at hv
    rcases List.mem_append.1 hv with hv | hv
    · exact .inl ⟨hv, hno v hv⟩
    · rw [List.mem_singleton.1 hv]
      exact .inr (.inr ⟨hno, rfl, rfl⟩)

theorem Identified.mem_connect (h : g.Identified) {u v : Vertex} {r : Relationship} {d : Edge}
    (hd : d ∈ allEdges (g.connect u v r)) : d ∈ allEdges g
      ∨ (¬ ∃ e ∈ allEdges g, e.source = u.id ∧ e.label = r.type ∧ e.target = v.id)
        ∧ d = ⟨g.nextEdge, r.type, u.id, v.id,
          (storedProperties r.properties).insert Key.guid r.guid⟩ := by
  unfold Graph.connect at hd
  split_ifs at hd with hold
  · exact .inl hd
  · rw [h.allEdges_addEdge] at hd
    refine (List.mem_append.1 hd).imp_right fun hd => ⟨fun he => hold (h.hasEdge_iff.2 he), ?_⟩
    exact List.mem_singleton.1 hd

namespace Records

theorem upsert (h : g.Records acc) (hg : g.Identified) {e : Event} {entity : Entity}
    (he : e.entity? = some entity) : (g.upsert entity).Records (acc ++ [e]) := by
  have hkeeps := hg.keeps_upsert entity
  have hrel : e.relationship? = none := by cases e <;> simp_all [Event.entity?, Event.relationship?]
  refine ⟨fun n first hfirst => ?_, fun v hv => ?_, fun type one two first hfirst => ?_, ?_,
    fun d hd => ?_⟩
  · by_cases hn : entity.guid = n
    · exact hn ▸ hg.exists_mem_upsert entity
    · rw [entitiesOf_append acc he, if_neg hn] at hfirst
      obtain ⟨v, hv, hguid⟩ := h.vertex_exists n first hfirst
      obtain ⟨v', hv', -, -, hguid'⟩ := hkeeps.vertex v hv
      exact ⟨v', hv', hguid'.trans hguid⟩
  · rcases hg.mem_upsert hv with ⟨hv, hne⟩ | ⟨w, hw, hwn, rfl⟩ | ⟨hno, hlabel, hps⟩
    · obtain ⟨n, first, hfirst, hlabel, hstored⟩ := h.vertex v hv
      have hn : entity.guid ≠ n := fun hn => hne (hstored.guid_eq.trans (congrArg some hn.symm))
      refine ⟨n, first, ?_, hlabel, ?_⟩ <;> rw [entitiesOf_append acc he, if_neg hn]
      · exact hfirst
      · exact hstored
    · obtain ⟨n, first, hfirst, hlabel, hstored⟩ := h.vertex w hw
      obtain rfl : entity.guid = n := Option.some.inj (hwn.symm.trans hstored.guid_eq)
      refine ⟨entity.guid, first, ?_, hlabel, ?_⟩ <;> rw [entitiesOf_append acc he, if_pos rfl]
      · rw [List.head?_append, hfirst, Option.some_or]
      · simp only [lastValue_append]
        exact hstored.merge entity.properties
    · have hnil : entitiesOf entity.guid acc = [] := by
        refine List.head?_eq_none_iff.1 (Option.eq_none_iff_forall_ne_some.2 fun first hfirst => ?_)
        obtain ⟨w, hw, hwn⟩ := h.vertex_exists _ first hfirst
        exact hno w hw hwn
      refine ⟨entity.guid, entity, ?_, hlabel, ?_⟩ <;>
        rw [entitiesOf_append acc he, if_pos rfl, hnil]
      · rfl
      · simp only [lastValue_append, hps]
        simpa [lastValue] using stored_insert entity.properties entity.guid
  · rw [relationshipsOf_append_of_none acc hrel] at hfirst
    obtain ⟨d, hd, hlabel, hb⟩ := h.edge_exists type one two first hfirst
    exact ⟨d, (allEdges_upsert g entity).symm ▸ hd, hlabel, hkeeps.between hb⟩
  · rw [allEdges_upsert]
    exact h.edge_unique
  · rw [allEdges_upsert] at hd
    obtain ⟨one, two, first, hfirst, hb, hstored⟩ := h.edge d hd
    exact ⟨one, two, first, relationshipsOf_append_of_none acc hrel _ _ _ ▸ hfirst,
      hkeeps.between hb, hstored⟩

theorem connect (h : g.Records acc) (hg : g.Identified) {r : Relationship} {u v : Vertex}
    (hone : vertexWith? g Key.guid r.endOne = some u)
    (htwo : vertexWith? g Key.guid r.endTwo = some v) :
    (g.connect u v r).Records (acc ++ [.newRelationship r]) := by
  obtain ⟨hu, hun⟩ := hg.mem_of_vertexWith? hone
  obtain ⟨hv, hvn⟩ := hg.mem_of_vertexWith? htwo
  have hkeeps := hg.keeps_connect u v r
  have hends : ∀ {e : Edge}, e.source = u.id → e.target = v.id →
      g.Between e r.endOne r.endTwo := fun hs ht => ⟨u, hu, v, hv, hun, hvn, hs, ht⟩
  have hvertices : allVertices (g.connect u v r) = allVertices g := by
    unfold Graph.connect
    split_ifs <;> rfl
  refine ⟨fun n first hfirst => ?_, fun w hw => ?_, fun type one two first hfirst => ?_,
    fun d hd e he hlabel hsource htarget => ?_, fun d hd => ?_⟩
  · rw [entitiesOf_append_of_none acc rfl] at hfirst
    exact hvertices ▸ h.vertex_exists n first hfirst
  · simp only [entitiesOf_append_of_none acc (e := .newRelationship r) rfl]
    exact h.vertex w (hvertices ▸ hw)
  · rw [head?_relationshipsOf_append] at hfirst
    rcases hold : (relationshipsOf type one two acc).head? with _ | first'
    · rw [hold, Option.none_or] at hfirst
      obtain ⟨rfl, rfl, rfl⟩ := (Option.ite_none_right_eq_some.1 hfirst).1
      obtain ⟨e, he, hsource, hlabel, htarget⟩ := hg.exists_mem_connect u v r
      exact ⟨e, he, hlabel, hkeeps.between (hends hsource htarget)⟩
    · obtain ⟨e, he, hlabel, hb⟩ := h.edge_exists type one two first' hold
      exact ⟨e, hkeeps.edges.subset he, hlabel, hkeeps.between hb⟩
  · rcases hg.mem_connect hd with hd | ⟨hnew, rfl⟩ <;>
      rcases hg.mem_connect he with he | ⟨hnew, rfl⟩
    · exact h.edge_unique d hd e he hlabel hsource htarget
    · exact absurd ⟨d, hd, hsource, hlabel, htarget⟩ hnew
    · exact absurd ⟨e, he, hsource.symm, hlabel.symm, htarget.symm⟩ hnew
    · rfl
  · rcases hg.mem_connect hd with hd | ⟨hnew, rfl⟩
    · obtain ⟨one, two, first, hfirst, hb, hstored⟩ := h.edge d hd
      refine ⟨one, two, first, ?_, hkeeps.between hb, hstored⟩
      rw [head?_relationshipsOf_append, hfirst, Option.some_or]
    · refine ⟨r.endOne, r.endTwo, r, ?_, hkeeps.between (hends rfl rfl),
        stored_insert r.properties r.guid⟩
      -- a relationship told before would have its edge in the graph
      have hnone : (relationshipsOf r.type r.endOne r.endTwo acc).head? = none := by
        refine Option.eq_none_iff_forall_ne_some.2 fun first hfirst => ?_
        obtain ⟨e, he, hlabel, w, hw, x, hx, hwn, hxn, hsource, htarget⟩ :=
          h.edge_exists _ _ _ first hfirst
        obtain rfl := hg.guid_unique w hw u hu (hwn.trans hun.symm)
        obtain rfl := hg.guid_unique x hx v hv (hxn.trans hvn.symm)
        exact hnew ⟨e, he, hsource, hlabel, htarget⟩
      rw [head?_relationshipsOf_append, hnone, Option.none_or, if_pos ⟨rfl, rfl, rfl⟩]

theorem apply (h : g.Records acc) (hg : g.Identified) {e : Event} {fs : List Fragment}
    (happly : Buffer.apply g e = .ok (fs, g')) : g'.Identified ∧ g'.Records (acc ++ [e]) := by
  rcases he : e.entity? with _ | entity
  · cases e with
    | newRelationship r =>
      rw [apply_newRelationship hg.toWellFormed] at happly
      split at happly
      · cases happly
      · cases happly
      · next u v hone htwo =>
        cases happly
        exact ⟨hg.connect (hg.mem_of_vertexWith? hone).1 (hg.mem_of_vertexWith? htwo).1 r,
          h.connect hg hone htwo⟩
    | newEntity => cases he
    | updatedEntity => cases he
    | processContext => cases he
  · obtain ⟨name, heq⟩ := apply_entity hg.toWellFormed he
    obtain ⟨-, rfl⟩ := Prod.mk.inj (Except.ok.inj (heq.symm.trans happly))
    exact ⟨hg.upsert entity, h.upsert hg he⟩

end Records

end Graph

/-! ## Any number of events -/

namespace Buffer

variable {g : Graph} {acc : List Event}

theorem cons_of_ok {e : Event} {fs : List Fragment} {g' : Graph}
    (h : Buffer.apply g e = .ok (fs, g')) (es : List Event) :
    recordAll g (e :: es) = recordAll g' es ∧ letIn g (e :: es) = e :: letIn g' es := by
  unfold recordAll
  rw [List.foldl_cons, letIn, h]
  exact ⟨rfl, rfl⟩

theorem cons_of_error {e : Event} {err : LineageError} (h : Buffer.apply g e = .error err)
    (es : List Event) :
    recordAll g (e :: es) = recordAll g es ∧ letIn g (e :: es) = letIn g es := by
  unfold recordAll
  rw [List.foldl_cons, letIn, h]
  exact ⟨rfl, rfl⟩

theorem records_recordAll : ∀ (es : List Event) {g : Graph} {acc : List Event}, g.Identified →
    g.Records acc → (recordAll g es).Identified ∧ (recordAll g es).Records (acc ++ letIn g es)
  | [], g, acc, hg, h => by
    rw [letIn, List.append_nil]
    exact ⟨hg, h⟩
  | e :: es, g, acc, hg, h => by
    rcases happly : Buffer.apply g e with err | ⟨fs, g'⟩
    · obtain ⟨hrecord, hletIn⟩ := cons_of_error happly es
      rw [hrecord, hletIn]
      exact records_recordAll es hg h
    · obtain ⟨hrecord, hletIn⟩ := cons_of_ok happly es
      obtain ⟨hg', h'⟩ := h.apply hg happly
      rw [hrecord, hletIn, List.append_cons]
      exact records_recordAll es hg' h'

/-- Without the events that are refused, a run ends in the same graph. -/
theorem recordAll_letIn : ∀ (es : List Event) (g : Graph),
    recordAll g (letIn g es) = recordAll g es
  | [], _ => rfl
  | e :: es, g => by
    rcases happly : Buffer.apply g e with err | ⟨fs, g'⟩
    · obtain ⟨hrecord, hletIn⟩ := cons_of_error happly es
      rw [hrecord, hletIn]
      exact recordAll_letIn es g
    · obtain ⟨hrecord, hletIn⟩ := cons_of_ok happly es
      rw [hrecord, hletIn, (cons_of_ok happly _).1]
      exact recordAll_letIn es g'

theorem recordAll_append (g : Graph) (es later : List Event) :
    recordAll g (es ++ later) = recordAll (recordAll g es) later :=
  List.foldl_append

end Buffer

/-! ## Refusal -/

/-- The first end of a relationship that is the guid of no vertex. -/
def Graph.unknownEnd? (g : Graph) (r : Relationship) : Option String :=
  [r.endOne, r.endTwo].find? fun n => (allVertices g).all fun v => v.guid? != some n

theorem Graph.Coherent.all_guid_ne {g : Graph} (h : g.Coherent) (n : String) :
    ((allVertices g).all fun v => v.guid? != some n) = (vertexWith? g Key.guid n).isNone := by
  rw [Bool.eq_iff_iff, List.all_eq_true, Option.isNone_iff_eq_none, h.vertexWith?_eq_none_iff]
  simp only [bne_iff_ne]
  rfl

theorem apply_eq_error_iff {g : Graph} (h : g.WellFormed) {e : Event} {err : LineageError} :
    Buffer.apply g e = .error err ↔ ∃ r n, e = .newRelationship r ∧ g.unknownEnd? r = some n
      ∧ err = .notFound .applyRelationship n := by
  rcases he : e.entity? with _ | entity
  · cases e with
    | newRelationship r =>
      rw [apply_newRelationship h]
      simp only [Event.newRelationship.injEq, exists_and_left, exists_eq_left', Graph.unknownEnd?,
        List.find?_cons, h.all_guid_ne]
      rcases vertexWith? g Key.guid r.endOne with _ | u <;>
        rcases vertexWith? g Key.guid r.endTwo with _ | v <;> simp [eq_comm]
    | newEntity => cases he
    | updatedEntity => cases he
    | processContext => cases he
  · obtain ⟨name, heq⟩ := apply_entity h he
    rw [heq]
    constructor
    · rintro ⟨⟩
    · rintro ⟨r, n, rfl, -⟩
      cases he

/-! ## Process contexts -/

theorem Stored.displayName_eq {n : String} {value : String → Option String} {ps : Properties}
    (h : Stored n value ps) : ps[Key.displayName]? = none := by
  refine Option.eq_none_iff_forall_ne_some.2 fun x hx => ?_
  rcases (h _ _).1 hx with ⟨hk, -⟩ | ⟨p, hp, -⟩
  · exact absurd hk (by decide)
  · have hlist := congrArg String.toList hp
    simp [Key.displayName, Key.ofEntity] at hlist

/-- The fragments of a process context go by the display name that the instance carries by then. -/
theorem Graph.Records.apply_processContext {g : Graph} {acc : List Event} (h : g.Records acc)
    (hg : g.Identified) (p : Entity) (ms : List ColumnMapping) :
    ∃ v ∈ allVertices (g.upsert p), v.guid? = some p.guid
      ∧ Buffer.apply g (.processContext p ms) = .ok (ms.map fun m =>
        ⟨m.input, m.output, ⟨p.guid, v.property? Key.entityDisplayName⟩⟩, g.upsert p) := by
  obtain ⟨v, hv, hguid, happly⟩ := Lineage.apply_processContext hg.toWellFormed p ms
  obtain ⟨-, hrecords⟩ := h.apply hg happly
  obtain ⟨n, first, -, -, hstored⟩ := hrecords.vertex v hv
  have hname : v.displayName? = v.property? Key.entityDisplayName := by
    rw [Vertex.displayName?, Vertex.property?, hstored.displayName_eq, Option.none_or]
  exact ⟨v, hv, hguid, hname ▸ happly⟩

/-- After any events on an empty buffer graph an event is refused just where it is a relationship
with an end that no vertex goes by, and the first such end is named; the refused events make no
difference. Of those let in there is one vertex for each guid of an entity, with the type of the
first and the last value of each property, and one edge for each type and pair of ends of a
relationship, with the guid and the properties of the first. A process context carries a fragment
for each mapping, with the guid of its process and the display name it has by then. -/
theorem buffer_of_accepted (name : String) (es : List Event) :
    let g := Buffer.recordAll (.empty name) es
    let acc := Buffer.letIn (.empty name) es
    (∀ e err, Buffer.apply g e = .error err ↔ ∃ r n, e = .newRelationship r
      ∧ g.unknownEnd? r = some n ∧ err = .notFound .applyRelationship n)
    ∧ Buffer.recordAll (.empty name) acc = g
    ∧ (∀ n, entitiesOf n acc ≠ [] → ∃! v, v ∈ allVertices g ∧ v.guid? = some n)
    ∧ (∀ v ∈ allVertices g, ∃ n first, (entitiesOf n acc).head? = some first
      ∧ v.label = first.type ∧ Stored n (fun p => lastValue p (entitiesOf n acc)) v.properties)
    ∧ (∀ type one two, relationshipsOf type one two acc ≠ [] →
      ∃! e, e ∈ allEdges g ∧ e.label = type ∧ g.Between e one two)
    ∧ (∀ e ∈ allEdges g, ∃ one two first, (relationshipsOf e.label one two acc).head? = some first
      ∧ g.Between e one two ∧ Stored first.guid (fun p => first.properties[p]?) e.properties)
    ∧ ∀ p ms, let g' := Buffer.recordAll (.empty name) (es ++ [.processContext p ms])
      ∃ v ∈ allVertices g', v.guid? = some p.guid
        ∧ Buffer.apply g (.processContext p ms) = .ok (ms.map fun m =>
          ⟨m.input, m.output, ⟨p.guid, v.property? Key.entityDisplayName⟩⟩, g') := by
  intro g acc
  obtain ⟨hg, h⟩ := Buffer.records_recordAll es (Graph.identified_empty name)
    (Graph.records_empty name)
  rw [List.nil_append] at h
  refine ⟨fun e err => apply_eq_error_iff hg.toWellFormed, Buffer.recordAll_letIn es _,
    fun n hn => ?_, h.vertex, fun type one two hrel => ?_, h.edge, fun p ms => ?_⟩
  · obtain ⟨first, rest, hcons⟩ := List.exists_cons_of_ne_nil hn
    obtain ⟨v, hv, hguid⟩ := h.vertex_exists n first (hcons ▸ rfl)
    exact ⟨v, ⟨hv, hguid⟩, fun w hw => hg.guid_unique w hw.1 v hv (hw.2.trans hguid.symm)⟩
  · obtain ⟨first, rest, hcons⟩ := List.exists_cons_of_ne_nil hrel
    obtain ⟨e, he, hlabel, hb⟩ := h.edge_exists type one two first (hcons ▸ rfl)
    refine ⟨e, ⟨he, hlabel, hb⟩, fun d ⟨hd, hdlabel, hdb⟩ => ?_⟩
    obtain ⟨u, hu, v, hv, hun, hvn, hsource, htarget⟩ := hb
    obtain ⟨w, hw, x, hx, hwn, hxn, hsource', htarget'⟩ := hdb
    obtain rfl := hg.guid_unique u hu w hw (hun.trans hwn.symm)
    obtain rfl := hg.guid_unique v hv x hx (hvn.trans hxn.symm)
    exact h.edge_unique d hd e he (hdlabel.trans hlabel.symm) (hsource'.trans hsource.symm)
      (htarget'.trans htarget.symm)
  · intro g'
    obtain ⟨v, hv, hguid, happly⟩ := h.apply_processContext hg p ms
    have hg' : g' = g.upsert p := (Buffer.recordAll_append _ _ _).trans
      (Buffer.cons_of_ok happly []).1
    exact ⟨v, hg' ▸ hv, hguid, hg' ▸ happly⟩

end Lineage
