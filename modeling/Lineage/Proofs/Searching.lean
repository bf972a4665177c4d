import Lineage.Consolidation
import Lineage.Proofs.Growth

/-!
# Searches that do not fail

In a well-formed graph every edge leads to a vertex, so no look-up around a vertex fails. The edges
met at a vertex in a direction are those that lead from it that way (`Coherent.mem_incident_iff`),
and the related instances found are those that an edge of the type joins with the vertex, one way or
the other (`exists_relatedInstances`).
-/

namespace Lineage

open Std Consolidation

theorem bind_of_ok {ε α β : Type} {x : Except ε α} {a : α} (h : x = .ok a)
    (f : α → Except ε β) : x >>= f = f a := by
  rw [h]
  rfl

theorem lift_of_ok {α : Type} {x : Except StoreError α} {a : α} (h : x = .ok a) :
    (liftM x : Except LineageError α) = .ok a := by
  rw [h]
  rfl

theorem ok_of_lift {α : Type} {x : Except StoreError α} {a : α}
    (h : (liftM x : Except LineageError α) = .ok a) : x = .ok a := by
  cases x with
  | error e => cases h
  | ok b => exact congrArg Except.ok (Except.ok.inj h)

/-! ## Neighbours -/

/-- A traversal whose steps all succeed succeeds with what the steps yield. -/
theorem exists_mapM_ok {α β ε : Type} {f : α → Except ε β} : ∀ (xs : List α),
    (∀ x ∈ xs, ∃ y, f x = .ok y) →
      ∃ ys, xs.mapM f = .ok ys ∧ ∀ y, y ∈ ys ↔ ∃ x ∈ xs, f x = .ok y
  | [], _ => ⟨[], rfl, by simp⟩
  | x :: xs, h => by
    obtain ⟨y, hy⟩ := h x List.mem_cons_self
    obtain ⟨ys, hys, hmem⟩ := exists_mapM_ok xs fun x' hx' => h x' (List.mem_cons_of_mem _ hx')
    refine ⟨y :: ys, ?_, fun z => ?_⟩
    · rw [List.mapM_cons, hy, hys]
      rfl
    · rw [List.mem_cons, hmem]
      constructor
      · rintro (rfl | ⟨x', hx', hz⟩)
        · exact ⟨x, List.mem_cons_self, hy⟩
        · exact ⟨x', List.mem_cons_of_mem _ hx', hz⟩
      · rintro ⟨x', hx', hz⟩
        rcases List.mem_cons.1 hx' with rfl | hx'
        · exact .inl (Except.ok.inj (hz.symm.trans hy))
        · exact .inr ⟨x', hx', hz⟩

/-- An edge leads from one vertex to another if it is followed in a direction. -/
def Edge.Leads (e : Edge) (d : Direction) (x y : VertexId) : Prop :=
  match d with
  | .outward => e.source = x ∧ e.target = y
  | .inward => e.target = x ∧ e.source = y
  | .both => e.source = x ∧ e.target = y ∨ e.target = x ∧ e.source = y

namespace Graph

variable {g : Graph}

theorem mem_edgesAt {x : VertexId} {d : Direction} {label : String} {e : Edge} :
    e ∈ edgesAt g x d (some label) ↔ e ∈ Readable.incident g x d ∧ e.label = label := by
  simp only [edgesAt, List.mem_filter, Edge.matches, Option.all_some, beq_iff_eq]
  exact and_congr_right fun _ => eq_comm

theorem Coherent.incident_ends (h : g.Coherent) {x : VertexId} {d : Direction} {e : Edge}
    (he : e ∈ Readable.incident g x d) : e ∈ allEdges g ∧ (e.source = x ∨ e.target = x) := by
  cases d
  · exact (h.mem_incident_outward.1 he).imp_right .inl
  · exact (h.mem_incident_inward.1 he).imp_right .inr
  · exact h.mem_incident_both.1 he

theorem Coherent.mem_incident (h : g.Coherent) {x : VertexId} {d : Direction} {e : Edge}
    (he : e ∈ Readable.incident g x d) : e ∈ allEdges g :=
  (h.incident_ends he).1

/-- An edge met at a vertex has no end but that and the other. -/
theorem Coherent.end_eq (h : g.Coherent) {x y : VertexId} {d : Direction} {e : Edge}
    (he : e ∈ Readable.incident g x d) (hy : y = e.source ∨ y = e.target) :
    y = x ∨ y = e.other x := by
  rcases (h.incident_ends he).2 with rfl | rfl
  · rwa [e.other_source]
  · rw [e.other_target]
    exact hy.symm

/-- The other end of an edge met at a vertex can be read. -/
theorem WellFormed.requireVertex_other (h : g.WellFormed) {x : VertexId} {d : Direction} {e : Edge}
    (he : e ∈ Readable.incident g x d) :
    ∃ v ∈ allVertices g, v.id = e.other x ∧ requireVertex g (e.other x) = .ok v := by
  obtain ⟨v, hv, hid⟩ := h.exists_other (h.mem_incident he) x
  exact ⟨v, hv, hid, hid ▸ h.requireVertex_of_mem hv⟩

theorem WellFormed.exists_neighbors (h : g.WellFormed) (x : VertexId) (d : Direction)
    (label : String) : ∃ found, neighbors g x d (some label) = .ok found
      ∧ ∀ e v, (e, v) ∈ found ↔ e ∈ Readable.incident g x d ∧ e.label = label
        ∧ v ∈ allVertices g ∧ v.id = e.other x := by
  obtain ⟨found, hfound, hmem⟩ := exists_mapM_ok
    (f := fun e => (requireVertex g (e.other x)).map (e, ·)) (edgesAt g x d (some label))
    fun e he => by
      obtain ⟨v, -, -, hv⟩ := h.requireVertex_other (mem_edgesAt.1 he).1
      exact ⟨(e, v), by rw [hv]; rfl⟩
  refine ⟨found, hfound, fun e v => ?_⟩
  rw [hmem]
  constructor
  · rintro ⟨e', he', heq⟩
    obtain ⟨hinc, hlabel⟩ := mem_edgesAt.1 he'
    obtain ⟨u, hu, hid, hreq⟩ := h.requireVertex_other hinc
    rw [hreq] at heq
    obtain ⟨rfl, rfl⟩ := Prod.mk.inj (Except.ok.inj heq)
    exact ⟨hinc, hlabel, hu, hid⟩
  · rintro ⟨hinc, hlabel, hv, hid⟩
    refine ⟨e, mem_edgesAt.2 ⟨hinc, hlabel⟩, ?_⟩
    rw [← hid, h.requireVertex_of_mem hv]
    rfl

/-- An edge that is accepted leads from one vertex to another. -/
def Leads (g : Graph) (d : Direction) (accepts : Edge → Bool) (x y : VertexId) : Prop :=
  ∃ e ∈ allEdges g, accepts e = true ∧ e.Leads d x y

theorem Coherent.mem_incident_iff (h : g.Coherent) {x y : VertexId} {d : Direction} {e : Edge} :
    e ∈ Readable.incident g x d ∧ e.other x = y ↔ e ∈ allEdges g ∧ e.Leads d x y := by
  cases d with
  | outward =>
    rw [h.mem_incident_outward, and_assoc]
    refine and_congr_right fun _ => and_congr_right ?_
    rintro rfl
    rw [e.other_source]
  | inward =>
    rw [h.mem_incident_inward, and_assoc]
    refine and_congr_right fun _ => and_congr_right ?_
    rintro rfl
    rw [e.other_target]
  | both =>
    rw [h.mem_incident_both, and_assoc]
    refine and_congr_right fun _ => ⟨?_, ?_⟩
    · rintro ⟨rfl | rfl, rfl⟩
      · exact .inl ⟨rfl, e.other_source.symm⟩
      · exact .inr ⟨rfl, e.other_target.symm⟩
    · rintro (⟨rfl, rfl⟩ | ⟨rfl, rfl⟩)
      · exact ⟨.inl rfl, e.other_source⟩
      · exact ⟨.inr rfl, e.other_target⟩

/-! ## Related instances -/

/-- An edge of a type joins two vertices, one way or the other. -/
def Related (g : Graph) (type : String) (u v : Vertex) : Prop :=
  ∃ e ∈ allEdges g, e.label = type
    ∧ (e.source = u.id ∧ e.target = v.id ∨ e.source = v.id ∧ e.target = u.id)

instance {g : Graph} {type : String} {u v : Vertex} : Decidable (g.Related type u v) :=
  inferInstanceAs (Decidable (∃ e ∈ allEdges g, e.label = type
    ∧ (e.source = u.id ∧ e.target = v.id ∨ e.source = v.id ∧ e.target = u.id)))

theorem Coherent.related_iff_incident (h : g.Coherent) {type : String} {u v : Vertex} :
    g.Related type u v
      ↔ ∃ e ∈ Readable.incident g u.id .both, e.label = type ∧ v.id = e.other u.id := by
  constructor
  · rintro ⟨e, he, hlabel, hends⟩
    have hleads : e.Leads .both u.id v.id := hends.imp_right And.symm
    obtain ⟨hinc, hother⟩ := h.mem_incident_iff.2 ⟨he, hleads⟩
    exact ⟨e, hinc, hlabel, hother.symm⟩
  · rintro ⟨e, hinc, hlabel, hother⟩
    obtain ⟨he, hleads⟩ := h.mem_incident_iff.1 ⟨hinc, hother.symm⟩
    exact ⟨e, he, hlabel, hleads.imp_right And.symm⟩

theorem WellFormed.exists_relatedInstances (h : g.WellFormed) (u : Vertex) (type : String) :
    ∃ found, relatedInstances g u.id type = .ok found
      ∧ ∀ v, v ∈ found ↔ v ∈ allVertices g ∧ v.guid?.isSome ∧ g.Related type u v := by
  obtain ⟨found, hfound, hmem⟩ := h.exists_neighbors u.id .both type
  refine ⟨(found.map Prod.snd).filter fun v => v.guid?.isSome, ?_, fun v => ?_⟩
  · rw [relatedInstances, hfound]
    rfl
  · rw [List.mem_filter, List.mem_map, h.related_iff_incident]
    constructor
    · rintro ⟨⟨⟨e, v'⟩, hp, rfl⟩, hguid⟩
      obtain ⟨hinc, hlabel, hv, hid⟩ := (hmem e v').1 hp
      exact ⟨hv, hguid, e, hinc, hlabel, hid⟩
    · rintro ⟨hv, hguid, e, hinc, hlabel, hid⟩
      exact ⟨⟨(e, v), (hmem e v).2 ⟨hinc, hlabel, hv, hid⟩, rfl⟩, hguid⟩

end Graph

end Lineage
