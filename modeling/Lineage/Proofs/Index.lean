import Lineage.Graph.Basic
import Lineage.Proofs.Listing

/-!
# The property index

Filing a vertex puts it under exactly its own pairs (`mem_holders_add`), taking it out removes it
from exactly those (`mem_holders_remove`), and neither leaves an empty place behind. So an index is
known by who holds what (`eq_of_holders`).
-/

namespace Lineage

open Std

namespace PropertyIndex

theorem getElem?_foldl_alter (q : PropertyPair)
    (f : Option (ExtTreeSet VertexId compare) → Option (ExtTreeSet VertexId compare)) :
    ∀ (ps : List (String × String)) (ix : PropertyIndex), ps.Nodup →
      (ps.foldl (fun ix p => ix.alter ⟨p.1, p.2⟩ f) ix)[q]?
        = if (q.key, q.value) ∈ ps then f ix[q]? else ix[q]?
  | [], ix, _ => by simp
  | p :: ps, ix, hnd => by
    obtain ⟨hp, hnd⟩ := List.nodup_cons.1 hnd
    rw [List.foldl_cons, getElem?_foldl_alter q f ps _ hnd, ExtTreeMap.getElem?_alter]
    by_cases hq : (⟨p.1, p.2⟩ : PropertyPair) = q
    · subst hq
      simp [hp]
    · have hne : (q.key, q.value) ≠ p := by
        rintro rfl
        exact hq rfl
      simp [hq, hne]

theorem nodup_toList (ps : Properties) : ps.toList.Nodup :=
  ExtTreeMap.distinct_keys_toList.imp fun h heq => h (by rw [heq]; exact compare_self)

/-- No place is empty. -/
def Occupied (ix : PropertyIndex) : Prop :=
  ∀ (p : PropertyPair) (ids : ExtTreeSet VertexId), ix[p]? = some ids → ids ≠ ∅

theorem getElem?_add (ix : PropertyIndex) (v : Vertex) (q : PropertyPair) :
    (ix.add v)[q]? = if v.properties[q.key]? = some q.value
      then some ((ix[q]?.getD ∅).insert v.id) else ix[q]? := by
  unfold add
  rw [getElem?_foldl_alter q _ _ ix (nodup_toList _)]
  simp only [ExtTreeMap.mem_toList_iff_getElem?_eq_some]

theorem getElem?_remove (ix : PropertyIndex) (v : Vertex) (q : PropertyPair) :
    (ix.remove v)[q]? = if v.properties[q.key]? = some q.value
      then (ix[q]?.map (·.erase v.id)).filter (!·.isEmpty) else ix[q]? := by
  unfold remove
  rw [getElem?_foldl_alter q _ _ ix (nodup_toList _)]
  simp only [ExtTreeMap.mem_toList_iff_getElem?_eq_some]

theorem mem_holders_add {ix : PropertyIndex} {v : Vertex} {key value : String} {i : VertexId} :
    i ∈ (ix.add v).holders key value
      ↔ i ∈ ix.holders key value ∨ (i = v.id ∧ v.properties[key]? = some value) := by
  unfold holders
  rw [getElem?_add]
  split_ifs with h
  · simp only [Option.getD_some, ExtTreeSet.mem_insert, Nat.compare_eq_eq]
    constructor
    · rintro (rfl | h')
      · exact .inr ⟨rfl, h⟩
      · exact .inl h'
    · rintro (h' | ⟨rfl, -⟩)
      · exact .inr h'
      · exact .inl rfl
  · simp [h]

theorem mem_holders_remove {ix : PropertyIndex} {v : Vertex} {key value : String} {i : VertexId} :
    i ∈ (ix.remove v).holders key value
      ↔ i ∈ ix.holders key value ∧ ¬ (i = v.id ∧ v.properties[key]? = some value) := by
  unfold holders
  rw [getElem?_remove]
  split_ifs with h
  · rcases hix : ix[(⟨key, value⟩ : PropertyPair)]? with _ | ids
    · simp
    · have herase : i ∈ ids.erase v.id ↔ i ∈ ids ∧ i ≠ v.id := by
        rw [ExtTreeSet.mem_erase, Ne, Nat.compare_eq_eq, and_comm, eq_comm]
      simp only [Option.map_some, Option.filter_some, Option.getD_some, h, and_true]
      rw [← Ne, ← herase]
      rcases hemp : (ids.erase v.id).isEmpty
      · rfl
      · simp [ExtTreeSet.isEmpty_iff.1 hemp]
  · simp [h]

theorem Occupied.add {ix : PropertyIndex} (hix : ix.Occupied) (v : Vertex) :
    (ix.add v).Occupied := by
  intro q ids h
  rw [getElem?_add] at h
  split_ifs at h
  · rw [← Option.some.inj h]
    exact ExtTreeSet.insert_ne_empty
  · exact hix q ids h

theorem Occupied.remove {ix : PropertyIndex} (hix : ix.Occupied) (v : Vertex) :
    (ix.remove v).Occupied := by
  intro q ids h
  rw [getElem?_remove] at h
  split_ifs at h
  · have := (Option.filter_eq_some_iff.1 h).2
    rintro rfl
    simp at this
  · exact hix q ids h

theorem occupied_empty : Occupied ∅ := by
  intro p ids h
  simp at h

theorem eq_of_holders {ix ix' : PropertyIndex} (h : ix.Occupied) (h' : ix'.Occupied)
    (heq : ∀ key value i, i ∈ ix.holders key value ↔ i ∈ ix'.holders key value) : ix = ix' := by
  refine ExtTreeMap.ext_getElem? fun {q} => ?_
  have hq : ∀ i, i ∈ ix[q]?.getD ∅ ↔ i ∈ ix'[q]?.getD ∅ := heq q.key q.value
  rcases hix : ix[q]? with _ | ids <;> rcases hix' : ix'[q]? with _ | ids' <;>
    rw [hix, hix'] at hq
  · refine absurd (ExtTreeSet.eq_empty_iff_forall_not_mem.2 fun i hi => ?_) (h' q ids' hix')
    exact ExtTreeSet.not_mem_empty ((hq i).2 hi)
  · refine absurd (ExtTreeSet.eq_empty_iff_forall_not_mem.2 fun i hi => ?_) (h q ids hix)
    exact ExtTreeSet.not_mem_empty ((hq i).1 hi)
  · exact congrArg some (ExtTreeSet.ext_mem fun {i} => hq i)

end PropertyIndex

end Lineage
