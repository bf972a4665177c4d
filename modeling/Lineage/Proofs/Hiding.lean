import Mathlib.Data.List.Forall2
import Lineage.Query
import Lineage.Proofs.Stored

/-!
# Hidden properties do not show

An answer goes by the identity and the display name of a vertex, and shows the properties that the
whitelist names. Two graphs that agree on these, and on labels and edges, may differ in every other
property (`Graph.AgreesUnder`). On two such graphs a query runs in step: what is looked up in one
agrees with what is looked up in the other, and the builder filled with either is one and the same.
So both runs end alike (`EndsAlike`), and no attribute gets into the builder that the whitelist does
not name (`answer_of_agreesUnder`).
-/

namespace Lineage

open Std Query
open List (Forall₂)

/-! ## Two runs -/

/-- Two computations fail with one error, or succeed with results that are related. -/
inductive EndsAlike {ε α β : Type} (R : α → β → Prop) : Except ε α → Except ε β → Prop
  | ok {a : α} {b : β} (related : R a b) : EndsAlike R (.ok a) (.ok b)
  | error (e : ε) : EndsAlike R (.error e) (.error e)

namespace EndsAlike

variable {ε α β γ δ : Type} {R : α → β → Prop} {S : γ → δ → Prop}

theorem bind {x : Except ε α} {y : Except ε β} {f : α → Except ε γ} {f' : β → Except ε δ}
    (h : EndsAlike R x y) (hf : ∀ a b, R a b → EndsAlike S (f a) (f' b)) :
    EndsAlike S (x >>= f) (y >>= f') := by
  cases h with
  | ok hab => exact hf _ _ hab
  | error e => exact .error e

theorem map {x : Except ε α} {y : Except ε β} {f : α → γ} {f' : β → δ} (h : EndsAlike R x y)
    (hf : ∀ a b, R a b → S (f a) (f' b)) : EndsAlike S (x.map f) (y.map f') := by
  cases h with
  | ok hab => exact .ok (hf _ _ hab)
  | error e => exact .error e

theorem lift {x : Except StoreError α} {y : Except StoreError β} (h : EndsAlike R x y) :
    EndsAlike R (liftM x : Except LineageError α) (liftM y : Except LineageError β) := by
  cases h with
  | ok hab => exact .ok hab
  | error e => exact .error _

theorem foldlM {f : α → γ → Except ε α} {f' : β → δ → Except ε β}
    (hf : ∀ a b c d, R a b → S c d → EndsAlike R (f a c) (f' b d)) {cs : List γ} {ds : List δ}
    (h : Forall₂ S cs ds) : ∀ {a : α} {b : β}, R a b →
      EndsAlike R (cs.foldlM f a) (ds.foldlM f' b) := by
  induction h with
  | nil => exact fun hab => .ok hab
  | cons hcd _ ih => exact fun hab => (hf _ _ _ _ hab hcd).bind fun a b hab => ih hab

theorem mapM {f : γ → Except ε α} {f' : δ → Except ε β}
    (hf : ∀ c d, S c d → EndsAlike R (f c) (f' d)) {cs : List γ} {ds : List δ}
    (h : Forall₂ S cs ds) : EndsAlike (Forall₂ R) (cs.mapM f) (ds.mapM f') := by
  induction h with
  | nil => exact .ok .nil
  | cons hcd _ ih =>
    rw [List.mapM_cons, List.mapM_cons]
    exact (hf _ _ hcd).bind fun a b hab => ih.bind fun as bs habs => .ok (.cons hab habs)

end EndsAlike

section Lists

variable {α β : Type} {R : α → β → Prop} {as : List α} {bs : List β}

theorem rel_find? {p : α → Bool} {q : β → Bool} (hpq : ∀ a b, R a b → p a = q b)
    (h : Forall₂ R as bs) : Option.Rel R (as.find? p) (bs.find? q) := by
  induction h with
  | nil => exact .none
  | @cons a b _ _ hab _ ih =>
    rw [List.find?_cons, List.find?_cons, ← hpq a b hab]
    cases p a with
    | true => exact .some hab
    | false => exact ih

theorem rel_getElem? (h : Forall₂ R as bs) : ∀ i : Nat, Option.Rel R as[i]? bs[i]? := by
  induction h with
  | nil => exact fun _ => .none
  | cons hab _ ih =>
    intro i
    cases i with
    | zero => exact .some hab
    | succ i => simpa only [List.getElem?_cons_succ] using ih i

theorem any_eq_any {p : α → Bool} {q : β → Bool} (hpq : ∀ a b, R a b → p a = q b)
    (h : Forall₂ R as bs) : as.any p = bs.any q := by
  induction h with
  | nil => rfl
  | cons hab _ ih => rw [List.any_cons, List.any_cons, hpq _ _ hab, ih]

theorem rel_filter {p : α → Bool} {q : β → Bool} (hpq : ∀ a b, R a b → p a = q b)
    (h : Forall₂ R as bs) : Forall₂ R (as.filter p) (bs.filter q) :=
  List.rel_filter (fun a b hab => by simp only [hpq a b hab]) h

theorem isEmpty_eq (h : Forall₂ R as bs) : as.isEmpty = bs.isEmpty := by
  cases h <;> rfl

end Lists

/-! ## Agreement -/

/-- The keys of what every answer goes by. -/
def Key.shown : List String := [nodeId, guid, displayName, entityDisplayName]

/-- Two vertices do not differ but in properties that a whitelist hides. -/
structure Vertex.AgreesUnder (w : Whitelist) (u v : Vertex) : Prop where
  id_eq : u.id = v.id
  label_eq : u.label = v.label
  property?_eq : ∀ key ∈ Key.shown ++ w.keys, u.property? key = v.property? key

instance {w : Whitelist} {u v : Vertex} : Decidable (u.AgreesUnder w v) :=
  decidable_of_iff (u.id = v.id ∧ u.label = v.label
      ∧ ∀ key ∈ Key.shown ++ w.keys, u.property? key = v.property? key)
    ⟨fun ⟨hid, hlabel, hps⟩ => ⟨hid, hlabel, hps⟩, fun h => ⟨h.id_eq, h.label_eq, h.property?_eq⟩⟩

/-- Two edges do not differ but in properties. -/
structure Edge.Agrees (d e : Edge) : Prop where
  id_eq : d.id = e.id
  label_eq : d.label = e.label
  source_eq : d.source = e.source
  target_eq : d.target = e.target

instance {d e : Edge} : Decidable (d.Agrees e) :=
  decidable_of_iff (d.id = e.id ∧ d.label = e.label ∧ d.source = e.source ∧ d.target = e.target)
    ⟨fun ⟨hid, hlabel, hs, ht⟩ => ⟨hid, hlabel, hs, ht⟩,
      fun h => ⟨h.id_eq, h.label_eq, h.source_eq, h.target_eq⟩⟩

/-- Two graphs have the same vertices, each meets the same edges in the same order, and they do not
differ but in hidden properties. -/
structure Graph.AgreesUnder (w : Whitelist) (g g' : Graph) : Prop where
  vertices : Forall₂ (Vertex.AgreesUnder w) (allVertices g) (allVertices g')
  incident : ∀ (x : VertexId) (d : Direction),
    Forall₂ Edge.Agrees (Readable.incident g x d) (Readable.incident g' x d)

namespace Vertex.AgreesUnder

variable {w : Whitelist} {u v : Vertex}

theorem shown_eq (h : u.AgreesUnder w v) {key : String} (hkey : key ∈ Key.shown) :
    u.property? key = v.property? key :=
  h.property?_eq key (List.mem_append_left _ hkey)

theorem displayName?_eq (h : u.AgreesUnder w v) : u.displayName? = v.displayName? := by
  unfold displayName?
  rw [h.shown_eq (by decide), h.shown_eq (by decide)]

theorem responseId_eq (h : u.AgreesUnder w v) : u.responseId = v.responseId := by
  have hnodeId : u.nodeId? = v.nodeId? := h.shown_eq (by decide)
  have hguid : u.guid? = v.guid? := h.shown_eq (by decide)
  rw [responseId, responseId, hnodeId, hguid, h.id_eq]

theorem abstract_eq (h : u.AgreesUnder w v) : u.abstract w = v.abstract w := by
  have hguid : u.guid? = v.guid? := h.shown_eq (by decide)
  have hattributes : (u.properties.filter fun key _ => w.allows key)
      = v.properties.filter fun key _ => w.allows key := by
    refine ExtTreeMap.ext_getElem? fun {key} => ?_
    rw [ExtTreeMap.getElem?_filter', ExtTreeMap.getElem?_filter']
    cases hkey : w.allows key with
    | false => simp
    | true =>
      have heq : u.properties[key]? = v.properties[key]? :=
        h.property?_eq key (List.mem_append_right _ (ExtTreeSet.mem_toList.2
          (ExtTreeSet.mem_iff_contains.2 hkey)))
      rw [heq]
  simp only [abstract, h.responseId_eq, h.label_eq, hguid, h.displayName?_eq, hattributes]

end Vertex.AgreesUnder

/-- Where adjacency says what the edges say, it is enough that the edges agree. -/
theorem Graph.Coherent.agreesUnder {w : Whitelist} {g g' : Graph} (h : g.Coherent)
    (h' : g'.Coherent) (hvs : Forall₂ (Vertex.AgreesUnder w) (allVertices g) (allVertices g'))
    (hes : Forall₂ Edge.Agrees (allEdges g) (allEdges g')) : g.AgreesUnder w g' where
  vertices := hvs
  incident x d := by
    have hleaving := rel_filter (p := (·.source == x)) (q := (·.source == x))
      (fun d e hde => by rw [hde.source_eq]) hes
    have hentering := rel_filter (p := (·.target == x)) (q := (·.target == x))
      (fun d e hde => by rw [hde.target_eq]) hes
    cases d with
    | outward => rwa [h.incident_outward, h'.incident_outward]
    | inward => rwa [h.incident_inward, h'.incident_inward]
    | both =>
      rw [h.incident_both, h'.incident_both]
      exact List.rel_append hleaving hentering

/-! ## Reading in step -/

theorem Graph.Sound.ends_of_incident {g : Graph} (h : g.Sound) {x : VertexId} {d : Direction}
    {e : Edge} (he : e ∈ Readable.incident g x d) :
    e.source ∈ g.vertices ∧ e.target ∈ g.vertices := by
  obtain ⟨i, -, hi⟩ := List.mem_filterMap.1 he
  exact h.ends hi

/-- Two sound graphs that agree. -/
structure Lookalikes (w : Whitelist) (g g' : Graph) : Prop where
  sound : g.Sound
  sound' : g'.Sound
  agrees : g.AgreesUnder w g'

/-- Edges that agree, with both ends in a graph. -/
def Graph.EdgeAgrees (g : Graph) (d e : Edge) : Prop :=
  (d.source ∈ g.vertices ∧ d.target ∈ g.vertices) ∧ d.Agrees e

theorem Edge.Agrees.other_eq {d e : Edge} (h : d.Agrees e) (x : VertexId) :
    d.other x = e.other x := by
  rw [Edge.other, Edge.other, h.source_eq, h.target_eq]

theorem Graph.EdgeAgrees.other_mem {g : Graph} {d e : Edge} (h : g.EdgeAgrees d e) (x : VertexId) :
    d.other x ∈ g.vertices := by
  unfold Edge.other
  split_ifs
  · exact h.1.2
  · exact h.1.1

namespace Lookalikes

variable {w : Whitelist} {g g' : Graph}

theorem requireVertex (h : Lookalikes w g g') {i : VertexId} (hi : i ∈ g.vertices) :
    EndsAlike (Vertex.AgreesUnder w) (requireVertex g i) (requireVertex g' i) := by
  have hrel := rel_find? (p := (·.id == i)) (q := (·.id == i))
    (fun u v huv => by rw [huv.id_eq]) h.agrees.vertices
  have hfind : (allVertices g).find? (·.id == i) = g.vertices[i]? :=
    find?_values (fun _ _ hv => h.sound.vertex_id hv) i
  have hfind' : (allVertices g').find? (·.id == i) = g'.vertices[i]? :=
    find?_values (fun _ _ hv => h.sound'.vertex_id hv) i
  rw [hfind, hfind'] at hrel
  obtain ⟨u, hu⟩ := Option.isSome_iff_exists.1 (ExtTreeMap.isSome_getElem?_iff_mem.2 hi)
  rw [hu] at hrel
  cases hv : g'.vertices[i]? with
  | none =>
    rw [hv] at hrel
    cases hrel
  | some v =>
    rw [hv] at hrel
    cases hrel with
    | some huv =>
      have hread : Readable.vertex? g i = some u := hu
      have hread' : Readable.vertex? g' i = some v := hv
      simp only [Lineage.requireVertex, hread, hread']
      exact .ok huv

theorem vertexWith? (h : Lookalikes w g g') (key value : String) (hkey : key ∈ Key.shown) :
    Option.Rel (Vertex.AgreesUnder w) (vertexWith? g key value) (vertexWith? g' key value) := by
  rw [h.sound.vertexWith?_eq, h.sound'.vertexWith?_eq]
  exact rel_find? (fun u v huv => by rw [huv.shown_eq hkey]) h.agrees.vertices

theorem edgesAt (h : Lookalikes w g g') (x : VertexId) (d : Direction) (label : Option String) :
    Forall₂ g.EdgeAgrees (edgesAt g x d label) (edgesAt g' x d label) := by
  have hincident : Forall₂ g.EdgeAgrees (incident g x d) (incident g' x d) :=
    (List.forall₂_and_left _ _).2 ⟨fun e he => h.sound.ends_of_incident he, h.agrees.incident x d⟩
  exact rel_filter (fun d e hde => by simp only [Edge.matches, hde.2.label_eq]) hincident

theorem neighbors (h : Lookalikes w g g') (x : VertexId) (d : Direction) (label : Option String) :
    EndsAlike (Forall₂ fun p p' => g.EdgeAgrees p.1 p'.1 ∧ p.2.AgreesUnder w p'.2)
      (neighbors g x d label) (neighbors g' x d label) := by
  refine EndsAlike.mapM (fun d e hde => ?_) (h.edgesAt x d label)
  rw [← hde.2.other_eq x]
  exact (h.requireVertex (hde.other_mem x)).map fun u v huv => ⟨hde, huv⟩

/-! ## Reach -/

theorem onward (h : Lookalikes w g g') {u v : Vertex} (huv : u.AgreesUnder w v) (d : Direction)
    (label : String) :
    Forall₂ g.EdgeAgrees (Reach.onward g d label u) (Reach.onward g' d label v) := by
  rw [Reach.onward, Reach.onward, huv.id_eq]
  exact h.edgesAt v.id d (some label)

theorem discover (h : Lookalikes w g g') {u v : Vertex} (huv : u.AgreesUnder w v)
    {ds es : List Edge} (hes : Forall₂ g.EdgeAgrees ds es) : ∀ {found found' : List Vertex},
      Forall₂ (Vertex.AgreesUnder w) found found' →
      EndsAlike (Forall₂ (Vertex.AgreesUnder w)) (Reach.discover g u ds found)
        (Reach.discover g' v es found') := by
  induction hes with
  | nil => exact fun hfound => .ok hfound
  | @cons d e _ _ hde _ ih =>
    intro found found' hfound
    have hother : d.other u.id = e.other v.id := by rw [hde.2.other_eq, huv.id_eq]
    have hany := any_eq_any (p := fun x => x.id == d.other u.id)
      (q := fun x => x.id == e.other v.id) (fun x y hxy => by rw [hxy.id_eq, hother]) hfound
    unfold Reach.discover
    rw [← hany, ← hother]
    cases found.any fun x => x.id == d.other u.id with
    | true => exact ih hfound
    | false =>
      exact (h.requireVertex (hde.other_mem u.id)).bind fun x y hxy =>
        ih (List.rel_append hfound (.cons hxy .nil))

theorem closureFrom (h : Lookalikes w g g') (d : Direction) (label : String) : ∀ (rounds : Nat)
    (position : Nat) {found found' : List Vertex}, Forall₂ (Vertex.AgreesUnder w) found found' →
      EndsAlike (Forall₂ (Vertex.AgreesUnder w)) (Reach.closureFrom g d label rounds position found)
        (Reach.closureFrom g' d label rounds position found')
  | 0, _, _, _, hfound => .ok hfound
  | rounds + 1, position, found, found', hfound => by
    have hat := rel_getElem? hfound position
    unfold Reach.closureFrom
    generalize found[position]? = at₁ at hat ⊢
    generalize found'[position]? = at₂ at hat ⊢
    cases hat with
    | none => exact .ok hfound
    | some huv =>
      exact (h.discover huv (h.onward huv d label) hfound).bind fun _ _ hall =>
        h.closureFrom d label rounds (position + 1) hall

theorem distinctEdges : ∀ {ds es : List Edge}, Forall₂ g.EdgeAgrees ds es →
    Forall₂ g.EdgeAgrees (Reach.distinctEdges ds) (Reach.distinctEdges es)
  | [], _, h => by
    cases h
    exact .nil
  | d :: ds, _, h => by
    cases h with
    | @cons _ e _ es hde hes =>
      have hrest := rel_filter (p := fun c => decide ((c.id == d.id) = false))
        (q := fun c => decide ((c.id == e.id) = false))
        (fun c c' hcc => by rw [hcc.2.id_eq, hde.2.id_eq]) hes
      rw [Reach.distinctEdges, Reach.distinctEdges, List.eraseDupsBy_cons, List.eraseDupsBy_cons]
      exact .cons hde (distinctEdges hrest)
  termination_by ds => ds.length
  decreasing_by exact Nat.lt_succ_of_le (List.length_filter_le _ _)

end Lookalikes

/-- What is reached in one graph agrees with what is reached in the other. -/
structure Reach.Agrees (w : Whitelist) (g : Graph) (r r' : Reach) : Prop where
  vertices : Forall₂ (Vertex.AgreesUnder w) r.vertices r'.vertices
  edges : Forall₂ g.EdgeAgrees r.edges r'.edges
  terminals : Forall₂ (Vertex.AgreesUnder w) r.terminals r'.terminals

theorem Reach.Agrees.isTrivial_eq {w : Whitelist} {g : Graph} {r r' : Reach} (h : r.Agrees w g r')
    (x : VertexId) : r.isTrivial x = r'.isTrivial x := by
  have hterminals := h.terminals
  unfold isTrivial
  generalize r.terminals = ts at hterminals ⊢
  generalize r'.terminals = ts' at hterminals ⊢
  cases hterminals with
  | nil => rfl
  | cons huv hrest =>
    cases hrest with
    | nil => simp only [huv.id_eq]
    | cons _ _ => rfl

theorem Lookalikes.reach {w : Whitelist} {g g' : Graph} (h : Lookalikes w g g') {u v : Vertex}
    (huv : u.AgreesUnder w v) (d : Direction) (label : String) :
    EndsAlike (Reach.Agrees w g) (reach g u d label) (reach g' v d label) := by
  have hclosure : EndsAlike (Forall₂ (Vertex.AgreesUnder w)) (Reach.closure g d label u)
      (Reach.closure g' d label v) := by
    rw [Reach.closure, Reach.closure, h.agrees.vertices.length_eq]
    exact h.closureFrom d label _ 0 (.cons huv .nil)
  refine hclosure.bind fun us vs hall => .ok ⟨hall, ?_, ?_⟩
  · exact distinctEdges (List.rel_flatMap hall fun x y hxy => h.onward hxy d label)
  · exact rel_filter (fun x y hxy => isEmpty_eq (h.onward hxy d label)) hall

/-! ## Filling in step -/

namespace Builder

/-- No attribute is in a builder that a whitelist does not name. -/
structure Discreet (w : Whitelist) (b : Builder) : Prop where
  whitelist_eq : b.whitelist = w
  attributes : ∀ (id : String) r, b.vertices[id]? = some r →
    ∀ key ∈ r.attributes, w.allows key = true

/-- One and the same builder, and a discreet one. -/
def Same (w : Whitelist) (b b' : Builder) : Prop := b = b' ∧ b.Discreet w

variable {w : Whitelist} {b b' : Builder} {u v : Vertex}

theorem discreet_empty (w : Whitelist) : (empty w).Discreet w where
  whitelist_eq := rfl
  attributes id r hr := by simp [empty] at hr

theorem mem_attributes_abstract {key : String} (h : key ∈ (v.abstract w).attributes) :
    w.allows key = true := by
  obtain ⟨hmem, hallowed⟩ := ExtTreeMap.mem_filter.1 h
  rwa [ExtTreeMap.getKey_eq] at hallowed

namespace Discreet

theorem addVertex (h : b.Discreet w) (v : Vertex) : (b.addVertex v).2.Discreet w := by
  unfold Builder.addVertex
  cases b.ids[v.id]? with
  | some id => exact h
  | none =>
    refine ⟨h.whitelist_eq, fun id r hr key hkey => ?_⟩
    rw [ExtTreeMap.getElem?_insertIfNew] at hr
    split_ifs at hr
    · rw [← Option.some.inj hr, h.whitelist_eq] at hkey
      exact mem_attributes_abstract hkey
    · exact h.attributes id r hr key hkey

theorem addResponseEdge (h : b.Discreet w) (e : ResponseEdge) :
    Discreet w { b with edges := b.edges.insert e } :=
  ⟨h.whitelist_eq, h.attributes⟩

theorem insertSentinel (h : b.Discreet w) (side : Side) :
    Discreet w { b with vertices := b.vertices.insert side.sentinel (condensedVertex side) } where
  whitelist_eq := h.whitelist_eq
  attributes id r hr key hkey := by
    rw [ExtTreeMap.getElem?_insert] at hr
    split_ifs at hr
    · rw [← Option.some.inj hr] at hkey
      exact absurd hkey ExtTreeMap.not_mem_empty
    · exact h.attributes id r hr key hkey

theorem addVertex_eq (h : b.Discreet w) (huv : u.AgreesUnder w v) :
    b.addVertex u = b.addVertex v := by
  unfold Builder.addVertex
  rw [huv.id_eq, h.whitelist_eq, huv.abstract_eq]

/-- The finished response shows no more than what is filed. -/
theorem finish (h : b.Discreet w) : ∀ v ∈ b.finish.vertices, ∀ key ∈ v.attributes,
    w.allows key = true := by
  intro v hv
  obtain ⟨id, hid⟩ := mem_values.1 hv
  exact h.attributes id v hid

end Discreet

namespace Same

theorem addVertex (h : b.Same w b') (huv : u.AgreesUnder w v) :
    (b.addVertex u).1 = (b'.addVertex v).1 ∧ (b.addVertex u).2.Same w (b'.addVertex v).2 := by
  obtain ⟨rfl, hb⟩ := h
  rw [hb.addVertex_eq huv]
  exact ⟨rfl, rfl, hb.addVertex v⟩

theorem addResponseEdge (h : b.Same w b') (e : ResponseEdge) :
    Same w { b with edges := b.edges.insert e } { b' with edges := b'.edges.insert e } := by
  obtain ⟨rfl, hb⟩ := h
  exact ⟨rfl, hb.addResponseEdge e⟩

theorem insertSentinel (h : b.Same w b') (side : Side) :
    Same w { b with vertices := b.vertices.insert side.sentinel (condensedVertex side) }
      { b' with vertices := b'.vertices.insert side.sentinel (condensedVertex side) } := by
  obtain ⟨rfl, hb⟩ := h
  exact ⟨rfl, hb.insertSentinel side⟩

theorem addVertices (h : b.Same w b') {us vs : List Vertex}
    (huvs : Forall₂ (Vertex.AgreesUnder w) us vs) :
    (b.addVertices us).Same w (b'.addVertices vs) :=
  List.rel_foldl (fun _ _ hb _ _ huv => (hb.addVertex huv).2) h huvs

theorem condense (h : b.Same w b') (side : Side) (huv : u.AgreesUnder w v) {us vs : List Vertex}
    (huvs : Forall₂ (Vertex.AgreesUnder w) us vs) :
    (b.condense side u us).Same w (b'.condense side v vs) := by
  obtain ⟨hid, hqueried⟩ := h.addVertex huv
  have hsentinel := (hqueried.insertSentinel side).addResponseEdge
    (side.edge EdgeLabel.condensed.name (b.addVertex u).1 side.sentinel)
  refine List.rel_foldl (fun c c' hc x y hxy => ?_) (hid ▸ hsentinel) huvs
  obtain ⟨hid, hx⟩ := hc.addVertex hxy
  have hedge := hx.addResponseEdge
    (side.edge EdgeLabel.condensed.name side.sentinel (c.addVertex x).1)
  nth_rewrite 2 [hid] at hedge
  exact hedge

end Same

end Builder

namespace Lookalikes

variable {w : Whitelist} {g g' : Graph} {b b' : Builder} {u v : Vertex}

theorem addEnd (h : Lookalikes w g g') (hb : b.Same w b') {i : VertexId} (hi : i ∈ g.vertices) :
    EndsAlike (fun p p' => p.1 = p'.1 ∧ p.2.Same w p'.2) (b.addEnd g i) (b'.addEnd g' i) := by
  unfold Builder.addEnd
  rw [← hb.1]
  cases b.ids[i]? with
  | some id => exact .ok ⟨rfl, rfl, hb.2⟩
  | none => exact (h.requireVertex hi).map fun x y hxy => Builder.Same.addVertex ⟨rfl, hb.2⟩ hxy

theorem addEdge (h : Lookalikes w g g') (hb : b.Same w b') {d e : Edge} (hde : g.EdgeAgrees d e) :
    EndsAlike (Builder.Same w) (b.addEdge g d) (b'.addEdge g' e) := by
  unfold Builder.addEdge
  rw [← hde.2.source_eq, ← hde.2.target_eq, ← hde.2.label_eq]
  refine (h.addEnd hb hde.1.1).bind fun p p' hsource => ?_
  refine (h.addEnd hsource.2 hde.1.2).bind fun q q' htarget => .ok ?_
  rw [hsource.1, htarget.1]
  exact htarget.2.addResponseEdge _

theorem addEdges (h : Lookalikes w g g') (hb : b.Same w b') {ds es : List Edge}
    (hdes : Forall₂ g.EdgeAgrees ds es) :
    EndsAlike (Builder.Same w) (b.addEdges g ds) (b'.addEdges g' es) :=
  EndsAlike.foldlM (R := Builder.Same w) (S := g.EdgeAgrees)
    (fun _ _ _ _ hb hde => h.addEdge hb hde) hdes hb

theorem addSide (h : Lookalikes w g g') (huv : u.AgreesUnder w v) (scope : Scope) (text : String)
    (label : EdgeLabel) (side : Side) (hb : b.Same w b') :
    EndsAlike (Builder.Same w) (addSide g scope text label u side b)
      (addSide g' scope text label v side b') := by
  refine (h.reach huv side.direction label.name).lift.bind fun r r' hr => ?_
  rw [isEmpty_eq hr.terminals, hr.isTrivial_eq, huv.id_eq, hr.terminals.length_eq]
  cases r'.terminals.isEmpty with
  | true => exact .error _
  | false =>
    cases r'.isTrivial v.id with
    | true => exact .ok hb
    | false =>
      by_cases hone : r'.terminals.length = 1
      · simp only [hone, if_true]
        exact (h.addEdges (hb.addVertices hr.vertices) hr.edges).lift
      · simp only [hone, if_false]
        exact .ok (hb.condense side huv hr.terminals)

theorem addReach (h : Lookalikes w g g') (huv : u.AgreesUnder w v) (d : Direction)
    (label : EdgeLabel) (hb : b.Same w b') :
    EndsAlike (Builder.Same w) (addReach g u d label b) (addReach g' v d label b') :=
  (h.reach huv d label.name).bind fun _ _ hr => h.addEdges (hb.addVertices hr.vertices) hr.edges

theorem addAssets (h : Lookalikes w g g') (huv : u.AgreesUnder w v) (hb : b.Same w b') :
    EndsAlike (Builder.Same w) (addAssets g u b) (addAssets g' v b') := by
  unfold Query.addAssets
  rw [huv.id_eq]
  refine (h.neighbors v.id .inward _).bind fun ps ps' hps => ?_
  exact EndsAlike.foldlM (fun _ _ _ _ hb hp => h.addEdge (hb.addVertex hp.2).2 hp.1) hps hb

theorem addGlossary (h : Lookalikes w g g') (huv : u.AgreesUnder w v) (hb : b.Same w b') :
    EndsAlike (Builder.Same w) (addGlossary g u b) (addGlossary g' v b') := by
  refine (h.reach huv .both _).bind fun r r' hr => ?_
  refine (h.addEdges (hb.addVertices hr.vertices) hr.edges).bind fun c c' hc => ?_
  exact EndsAlike.foldlM (S := Vertex.AgreesUnder w) (fun _ _ _ _ hb hxy => h.addAssets hxy hb)
    hr.vertices hc

theorem assemble (h : Lookalikes w g g') (huv : u.AgreesUnder w v) (scope : Scope) (view : View)
    (text : String) (hb : b.Same w b') :
    EndsAlike (Builder.Same w) (assemble g scope view text u b)
      (assemble g' scope view text v b') := by
  have hqueried := (hb.addVertex huv).2
  cases scope with
  | ultimateSource => exact h.addSide huv _ text _ .source hqueried
  | ultimateDestination => exact h.addSide huv _ text _ .destination hqueried
  | sourceAndDestination =>
    exact (h.addSide huv _ text _ .source hqueried).bind fun _ _ hc =>
      h.addSide huv _ text _ .destination hc
  | endToEnd =>
    exact (h.addReach huv .inward _ hqueried).lift.bind fun _ _ hc =>
      (h.addReach huv .outward _ hc).lift
  | glossary => exact (h.addGlossary huv hqueried).lift

theorem findNode? (h : Lookalikes w g g') (text : String) :
    Option.Rel (Vertex.AgreesUnder w) (findNode? g text) (findNode? g' text) := by
  have hnodeId := h.vertexWith? Key.nodeId text (by decide)
  have hguid := h.vertexWith? Key.guid text (by decide)
  unfold Query.findNode?
  generalize Lineage.vertexWith? g Key.nodeId text = x at hnodeId ⊢
  generalize Lineage.vertexWith? g' Key.nodeId text = x' at hnodeId ⊢
  cases hnodeId with
  | none => exact hguid
  | some huv => exact .some huv

/-- The two graphs give one answer, and it is discreet. -/
theorem answer (h : Lookalikes w g g') (name : GraphName) (scope : Scope) (view : View)
    (text : String) : EndsAlike
      (fun r r' => r = r' ∧ ∀ v ∈ r.vertices, ∀ key ∈ v.attributes, w.allows key = true)
      (answer g w name scope view text) (answer g' w name scope view text) := by
  have hfound := h.findNode? text
  unfold Query.answer
  generalize Query.findNode? g text = q at hfound ⊢
  generalize Query.findNode? g' text = q' at hfound ⊢
  cases hfound with
  | none => exact .error _
  | some huv =>
    refine (h.assemble huv scope view text ⟨rfl, Builder.discreet_empty w⟩).bind fun b b' hb => ?_
    exact .ok ⟨congrArg Builder.finish hb.1, hb.2.finish⟩

end Lookalikes

/-- Whatever is hidden, an answer is the same, and shows none of it. -/
theorem answer_of_agreesUnder {g g' : Graph} (hg : g.Storable) (hg' : g'.Storable) {w : Whitelist}
    (hagree : g.AgreesUnder w g') (graph : GraphName) (scope : Scope) (view : View)
    (text : String) :
    answer g w graph scope view text = answer g' w graph scope view text
      ∧ ∀ r, answer g w graph scope view text = .ok r →
        ∀ v ∈ r.vertices, ∀ key ∈ v.attributes, w.allows key = true := by
  have hends := Lookalikes.answer ⟨hg.sound, hg'.sound, hagree⟩ graph scope view text
  generalize answer g w graph scope view text = a at hends ⊢
  generalize answer g' w graph scope view text = a' at hends ⊢
  cases hends with
  | error e =>
    refine ⟨rfl, fun r hr => ?_⟩
    cases hr
  | ok hrr =>
    refine ⟨congrArg Except.ok hrr.1, fun r hr => ?_⟩
    cases hr
    exact hrr.2

/-- Two columns feed a third; all carry a remark, which also stands on the edges. -/
def sampleRemarks (remark : String) : List Episode :=
  [⟨(["a", "b", "c"].map fun n => .addVertex "Column"
      (ExtTreeMap.ofList [(Key.nodeId, n), (Key.tableDisplayName, "t"), ("remark", remark)]))
    ++ ([(0, 2), (1, 2)].map fun (s, t) =>
      .addEdge "ColumnAndProcess" s t (ExtTreeMap.ofList [("remark", remark)])), .commit⟩]

theorem answer_of_sampleRemarks :
    let g := (Graph.empty "main").after (sampleRemarks "right")
    let g' := (Graph.empty "main").after (sampleRemarks "wrong")
    g ≠ g' ∧ g.Storable ∧ g'.Storable ∧ g.AgreesUnder .standard g'
      ∧ answer g .standard .main .ultimateSource .column "c"
        = answer g' .standard .main .ultimateSource .column "c"
      ∧ ∀ r, answer g .standard .main .ultimateSource .column "c" = .ok r →
        ∀ v ∈ r.vertices, ∀ key ∈ v.attributes, Whitelist.standard.allows key = true := by
  have hagree := Graph.Coherent.agreesUnder (w := .standard)
    (wellFormed_after_empty "main" (sampleRemarks "right")).toCoherent
    (wellFormed_after_empty "main" (sampleRemarks "wrong")).toCoherent (by decide +kernel)
    (by decide +kernel)
  have hstored := Graph.storable_after_empty "main"
  exact ⟨by decide +kernel, hstored _, hstored _, hagree,
    answer_of_agreesUnder (hstored _) (hstored _) hagree _ _ _ _⟩

end Lineage
