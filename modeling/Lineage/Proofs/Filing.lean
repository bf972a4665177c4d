import Lineage.Proofs.Drawing
import Lineage.Proofs.Scopes

/-!
# The vertices of an answer

Every vertex of an answer is a vertex of the graph as responses show it, or it stands for a frontier
that was condensed, and one that does is not replaced (`Builder.Holds`). So, where a response id
tells how a vertex is shown, the ids and the edges of an answer and the sides condensed determine
all of it (`Builder.finish_eq`).
-/

namespace Lineage

open Std Query

theorem Side.sentinel_injective : Function.Injective Side.sentinel := by
  rintro (_ | _) (_ | _) h
  · rfl
  · exact absurd h (by decide)
  · exact absurd h (by decide)
  · rfl

namespace Builder

/-- Which vertex each id of a builder is filed with, once the frontiers on some sides have been
condensed. -/
structure Holds (g : Graph) (w : Whitelist) (sides : Set Side) (b : Builder) : Prop where
  whitelist_eq : b.whitelist = w
  stored : ∀ (id : String) r, b.vertices[id]? = some r →
    (∃ v ∈ allVertices g, r = v.abstract w) ∨ ∃ side ∈ sides, r = condensedVertex side
  condensed : ∀ side ∈ sides, b.vertices[side.sentinel]? = some (condensedVertex side)

variable {g : Graph} {w : Whitelist} {sides : Set Side} {b b' : Builder}

theorem holds_empty (g : Graph) (w : Whitelist) : (empty w).Holds g w ∅ where
  whitelist_eq := rfl
  stored id r hr := by simp [empty] at hr
  condensed side hside := absurd hside (Set.notMem_empty side)

namespace Holds

theorem addVertex (h : b.Holds g w sides) {v : Vertex} (hv : v ∈ allVertices g) :
    (b.addVertex v).2.Holds g w sides := by
  unfold Builder.addVertex
  cases b.ids[v.id]? with
  | some id => exact h
  | none =>
    refine ⟨h.whitelist_eq, fun id r hr => ?_, fun side hside => ?_⟩
    · rw [ExtTreeMap.getElem?_insertIfNew] at hr
      split_ifs at hr
      · exact .inl ⟨v, hv, by rw [← Option.some.inj hr, h.whitelist_eq]⟩
      · exact h.stored id r hr
    · -- what is filed under the sentinel is not replaced by a vertex added later
      have hkept := h.condensed side hside
      rw [ExtTreeMap.getElem?_insertIfNew, if_neg, hkept]
      rintro ⟨heq, hnew⟩
      rw [LawfulEqCmp.eq_of_compare heq] at hnew
      exact hnew (ExtTreeMap.isSome_getElem?_iff_mem.1 (by rw [hkept]; rfl))

theorem addResponseEdge (h : b.Holds g w sides) (e : ResponseEdge) :
    Holds g w sides { b with edges := b.edges.insert e } :=
  ⟨h.whitelist_eq, h.stored, h.condensed⟩

theorem keeps (g : Graph) (w : Whitelist) (sides : Set Side) :
    Keeps {v | v ∈ allVertices g} (Holds g w sides) where
  addVertex hv h := h.addVertex hv
  addResponseEdge e h := h.addResponseEdge e

theorem insertSentinel (h : b.Holds g w sides) (side : Side) : Holds g w (insert side sides)
    { b with vertices := b.vertices.insert side.sentinel (condensedVertex side) } := by
  refine ⟨h.whitelist_eq, fun id r hr => ?_, fun other hother => ?_⟩
  · rw [ExtTreeMap.getElem?_insert] at hr
    split_ifs at hr
    · exact .inr ⟨side, .inl rfl, (Option.some.inj hr).symm⟩
    · exact (h.stored id r hr).imp_right fun ⟨s, hs, heq⟩ => ⟨s, .inr hs, heq⟩
  · rw [ExtTreeMap.getElem?_insert]
    split_ifs with heq
    · rw [Side.sentinel_injective (LawfulEqCmp.eq_of_compare heq)]
    · rcases hother with rfl | hother
      · exact absurd compare_self heq
      · exact h.condensed other hother

theorem condense (h : b.Holds g w sides) (side : Side) {queried : Vertex}
    (hqueried : queried ∈ allVertices g) {frontier : List Vertex}
    (hfrontier : ∀ v ∈ frontier, v ∈ allVertices g) :
    (b.condense side queried frontier).Holds g w (insert side sides) :=
  List.foldlRecOn frontier _ (((h.addVertex hqueried).insertSentinel side).addResponseEdge _)
    fun _ hb v hv => (hb.addVertex (hfrontier v hv)).addResponseEdge _

end Holds

theorem Holds.eq_of_getElem? {g' : Graph} (h : b.Holds g w sides) (h' : b'.Holds g' w sides)
    {id : String} {r r' : ResponseVertex} (hown : r.id = id) (hown' : r'.id = id)
    (hsame : ∀ v ∈ allVertices g, ∀ v' ∈ allVertices g', v.responseId = v'.responseId →
      v.abstract w = v'.abstract w) (hr : b.vertices[id]? = some r)
    (hr' : b'.vertices[id]? = some r') : r = r' := by
  rcases h.stored id r hr with ⟨v, hv, rfl⟩ | ⟨side, hside, rfl⟩
  · rcases h'.stored id r' hr' with ⟨v', hv', rfl⟩ | ⟨side, hside, rfl⟩
    · exact hsame v hv v' hv' (hown.trans hown'.symm)
    · rw [← hown'] at hr
      exact Option.some.inj (hr.symm.trans (h.condensed side hside))
  · rw [← hown] at hr'
    exact Option.some.inj ((h'.condensed side hside).symm.trans hr')

/-- The same ids and edges and the same sides condensed make the same response. -/
theorem finish_eq {g' : Graph} {ids : Set String} {edges : Set ResponseEdge}
    (hb : b.Shows g ids edges) (hb' : b'.Shows g' ids edges) (h : b.Holds g w sides)
    (h' : b'.Holds g' w sides)
    (hsame : ∀ v ∈ allVertices g, ∀ v' ∈ allVertices g', v.responseId = v'.responseId →
      v.abstract w = v'.abstract w) : b.finish = b'.finish := by
  have hvertices : b.vertices = b'.vertices := by
    refine ExtTreeMap.ext_getElem? fun id => ?_
    have hfiled : id ∈ b.vertices ↔ id ∈ b'.vertices := (hb.filed id).trans (hb'.filed id).symm
    rw [← ExtTreeMap.isSome_getElem?_iff_mem, ← ExtTreeMap.isSome_getElem?_iff_mem] at hfiled
    cases hr : b.vertices[id]? with
    | none =>
      rw [hr, Option.isSome_none, Bool.false_eq_true, false_iff, Bool.not_eq_true,
        Option.isSome_eq_false_iff, Option.isNone_iff_eq_none] at hfiled
      exact hfiled.symm
    | some r =>
      obtain ⟨r', hr'⟩ := Option.isSome_iff_exists.1 (hfiled.1 (by rw [hr]; rfl))
      rw [hr', h.eq_of_getElem? h' (hb.own id r hr) (hb'.own id r' hr') hsame hr hr']
  have hedges : b.edges = b'.edges :=
    ExtTreeSet.ext_mem fun e => (hb.edges e).trans (hb'.edges e).symm
  rw [finish, finish, hvertices, hedges]

end Builder

/-! ## The sides condensed -/

namespace Builder.Holds

variable {g : Graph} {w : Whitelist} {sides : Set Side} {b b' : Builder} {scope : Scope}
  {text : String} {label : EdgeLabel} {q : Vertex}

theorem addSide (h : b.Holds g w sides) (hg : g.WellFormed) (hq : q ∈ allVertices g) {side : Side}
    (hadd : Query.addSide g scope text label q side b = .ok b') :
    b'.Holds g w ({s | s = side ∧ (g.frontier s label q).Nontrivial} ∪ sides) := by
  obtain ⟨r, hr, hexact⟩ := Reach.exists_reach hg hq side.direction label.name
  rw [addSide_of_reach hr] at hadd
  rcases hterminals : r.terminals with _ | ⟨t, _ | ⟨u, ts⟩⟩ <;> rw [hterminals] at hadd
  · cases hadd
  · have hsides : {s | s = side ∧ (g.frontier s label q).Nontrivial} ∪ sides = sides := by
      refine Set.union_eq_self_of_subset_left ?_
      rintro s ⟨rfl, hT⟩
      obtain ⟨t, u, ts, hseveral⟩ := hexact.two_le_terminals hg.toCoherent hT
      rw [hterminals] at hseveral
      cases hseveral
    rw [hsides]
    dsimp only at hadd
    split_ifs at hadd
    · cases hadd
      exact h
    · exact (keeps g w sides).addReached hg hexact (fun v hv => ((hexact.mem_vertices v).1 hv).1) h
        (ok_of_lift hadd)
  · have hT := hexact.nontrivial_frontier hg.toCoherent hterminals
    have hsides : {s | s = side ∧ (g.frontier s label q).Nontrivial} ∪ sides
        = insert side sides := by
      ext s
      simp only [Set.mem_union, Set.mem_ofPred_eq, Set.mem_insert_iff]
      exact or_congr_left ⟨And.left, fun hs => ⟨hs, hs ▸ hT⟩⟩
    rw [hsides]
    cases hadd
    refine h.condense side hq fun v hv => ?_
    rw [← hterminals, hexact.mem_frontier hg.toCoherent] at hv
    exact hv.1.1

theorem addSides (hg : g.WellFormed) (hq : q ∈ allVertices g) : ∀ (on : List Side)
    {sides : Set Side} {b : Builder}, b.Holds g w sides →
      on.foldlM (fun b side => Query.addSide g scope text label q side b) b = .ok b' →
      b'.Holds g w ({s | s ∈ on ∧ (g.frontier s label q).Nontrivial} ∪ sides)
  | [], sides, b, h, hadd => by
    cases hadd
    simpa using h
  | side :: on, sides, b, h, hadd => by
    obtain ⟨b₁, hfirst, hrest⟩ := exists_of_bind_ok hadd
    have hrest := addSides hg hq on (h.addSide hg hq hfirst) hrest
    convert hrest using 1
    ext s
    simp only [Set.mem_union, Set.mem_ofPred_eq, List.mem_cons]
    tauto

theorem assemble (h : b.Holds g w sides) (hg : g.WellFormed) (hq : q ∈ allVertices g) {view : View}
    (hadd : Query.assemble g scope view text q b = .ok b') :
    b'.Holds g w ({s | s ∈ scope.sides ∧ (g.frontier s view.edgeLabel q).Nontrivial} ∪ sides) := by
  have hqueried := h.addVertex hq
  have hno : ∀ {b : Builder}, b.Holds g w sides → b.Holds g w
      ({s | s ∈ ([] : List Side) ∧ (g.frontier s view.edgeLabel q).Nontrivial} ∪ sides) := by
    simp only [List.not_mem_nil, false_and, Set.ofPred_false, Set.empty_union, imp_self,
      implies_true]
  cases scope using Scope.casesOnSides with
  | sides scope hscope =>
    rw [assemble_eq_foldlM hscope] at hadd
    exact addSides hg hq scope.sides hqueried hadd
  | endToEnd =>
    obtain ⟨b₁, hsource, hdestination⟩ := exists_of_bind_ok hadd
    have h₁ := (keeps g w sides).addReach hg hq .source (fun _ hv => hv.1) hqueried
      (ok_of_lift hsource)
    exact hno ((keeps g w sides).addReach hg hq .destination (fun _ hv => hv.1) h₁
      (ok_of_lift hdestination))
  | glossary =>
    exact hno ((keeps g w sides).addGlossary hg hq Graph.glossary_subset hqueried (ok_of_lift hadd))

end Builder.Holds

end Lineage
