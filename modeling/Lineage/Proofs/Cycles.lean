import Mathlib.Data.Fintype.Card
import Mathlib.Data.Set.Finite.List
import Lineage.Proofs.Distinct

/-!
# Lineage without an end

A graph is finite. So if the lineage on one side of a vertex has no frontier, every vertex of it
having another beyond it, then some vertex of it is reached again from itself
(`exists_cycle_of_frontier_eq_empty`). What lies beyond a vertex of the lineage belongs to the
lineage, and so the same holds of every branch: one that never comes to an end runs into a cycle.
-/

namespace Lineage

open Relation (ReflTransGen TransGen)

/-- In a finite set which a relation leads on from everywhere, it leads back somewhere. -/
theorem exists_transGen_self {α : Type} {r : α → α → Prop} {s : Set α} (hs : s.Finite)
    (hne : s.Nonempty) (h : ∀ x ∈ s, ∃ y ∈ s, r x y) : ∃ x ∈ s, TransGen r x x := by
  by_contra hno
  -- otherwise to be led to is a well-founded order of the set, with a least element
  have : Finite s := hs
  let Beyond : s → s → Prop := fun x y => TransGen r y x
  have : IsTrans s Beyond := ⟨fun _ _ _ hxy hyz => hyz.trans hxy⟩
  have : Std.Irrefl Beyond := ⟨fun x hx => hno ⟨x, x.2, hx⟩⟩
  obtain ⟨x, -, hleast⟩ := (Finite.wellFounded_of_trans_of_irrefl Beyond).has_min Set.univ
    ⟨⟨_, hne.some_mem⟩, trivial⟩
  obtain ⟨y, hy, hstep⟩ := h x x.2
  exact hleast ⟨y, hy⟩ trivial (.single hstep)

namespace Graph

variable {g : Graph} {side : Side} {label : EdgeLabel} {q v : Vertex}

/-- A cycle is one whichever way round it is followed. -/
theorem transGen_farther_self {x : VertexId} :
    TransGen (g.Farther side label) x x ↔ TransGen (g.Joined label) x x := by
  cases side with
  | source => exact Relation.transGen_swap
  | destination => exact Iff.rfl

theorem lineage_subset (hv : v ∈ g.lineage side label q) :
    g.lineage side label v ⊆ g.lineage side label q :=
  fun _ hu => ⟨hu.1, hv.2.trans hu.2⟩

theorem frontier_subset (hv : v ∈ g.lineage side label q) :
    g.frontier side label v ⊆ g.frontier side label q :=
  fun _ ht => ⟨lineage_subset hv ht.1, ht.2⟩

theorem finite_lineage : (g.lineage side label q).Finite :=
  (List.finite_toSet (allVertices g)).subset fun _ hv => hv.1

theorem WellFormed.exists_cycle_of_frontier_eq_empty (hg : g.WellFormed) (hq : q ∈ allVertices g)
    (hT : g.frontier side label q = ∅) :
    ∃ v ∈ g.lineage side label q, TransGen (g.Joined label) v.id v.id := by
  have hnext : ∀ x ∈ Vertex.id '' g.lineage side label q,
      ∃ y ∈ Vertex.id '' g.lineage side label q, g.Farther side label x y := by
    rintro _ ⟨v, hv, rfl⟩
    have hlast : ¬ ∀ y, ¬ g.Farther side label v.id y := fun hlast =>
      Set.notMem_empty v (hT ▸ (⟨hv, hlast⟩ : v ∈ g.frontier side label q))
    obtain ⟨y, hy⟩ := not_forall_not.1 hlast
    obtain ⟨u, hu, rfl⟩ := (hg.bounds_farther side label v.id y hy).2
    exact ⟨u.id, ⟨u, ⟨hu, hv.2.tail hy⟩, rfl⟩, hy⟩
  obtain ⟨_, ⟨v, hv, rfl⟩, hcycle⟩ := exists_transGen_self (finite_lineage.image Vertex.id)
    ⟨q.id, q, mem_lineage_self hq, rfl⟩ hnext
  exact ⟨v, hv, transGen_farther_self.1 hcycle⟩

theorem WellFormed.frontier_nonempty (hg : g.WellFormed) (hq : q ∈ allVertices g)
    (hacyclic : ∀ v ∈ g.lineage side label q, ¬ TransGen (g.Joined label) v.id v.id) :
    (g.frontier side label q).Nonempty := by
  refine Set.nonempty_iff_ne_empty.2 fun hT => ?_
  obtain ⟨v, hv, hcycle⟩ := hg.exists_cycle_of_frontier_eq_empty hq hT
  exact hacyclic v hv hcycle

end Graph

end Lineage
