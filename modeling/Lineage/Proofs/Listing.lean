import Lineage.Properties
import Mathlib.Tactic.Common

/-!
# Listing a finite map

A map lists its values by key, so two listings in which ids go up and which have the same members
are the same list (`eq_of_ascending`), and a key above all others puts its value at the end
(`values_insert_of_forall_lt`).
-/

namespace Lineage

open Std

theorem eq_of_ascending {α : Type} (rank : α → Nat) {l₁ l₂ : List α}
    (h₁ : l₁.Pairwise fun a b => rank a < rank b) (h₂ : l₂.Pairwise fun a b => rank a < rank b)
    (h : ∀ a, a ∈ l₁ ↔ a ∈ l₂) : l₁ = l₂ := by
  have hnd : ∀ {l : List α}, l.Pairwise (fun a b => rank a < rank b) → l.Nodup := fun hl =>
    hl.imp fun hab heq => by subst heq; exact Nat.lt_irrefl _ hab
  have hperm : l₁.Perm l₂ := (List.perm_ext_iff_of_nodup (hnd h₁) (hnd h₂)).2 h
  refine hperm.eq_of_pairwise (fun a b _ _ hab hba => ?_) h₁ h₂
  exact absurd (Nat.lt_trans hab hba) (Nat.lt_irrefl _)

section Maps

variable {α β : Type} {cmp : α → α → Ordering} [TransCmp cmp]

theorem values_eq_map_toList (m : ExtTreeMap α β cmp) : m.values = m.toList.map Prod.snd := by
  obtain ⟨⟨q⟩⟩ := m
  induction q using Quotient.inductionOn with
  | h t =>
    show t.inner.values = (DTreeMap.Internal.Impl.Const.toList t.inner).map Prod.snd
    rw [DTreeMap.Internal.Impl.values_eq_map_snd,
      DTreeMap.Internal.Impl.Const.toList_eq_toListModel_map]
    simp

theorem mem_values [LawfulEqCmp cmp] {m : ExtTreeMap α β cmp} {v : β} :
    v ∈ m.values ↔ ∃ k : α, m[k]? = some v := by
  rw [values_eq_map_toList, List.mem_map]
  constructor
  · rintro ⟨⟨k, u⟩, h, rfl⟩
    exact ⟨k, ExtTreeMap.mem_toList_iff_getElem?_eq_some.1 h⟩
  · rintro ⟨k, h⟩
    exact ⟨(k, v), ExtTreeMap.mem_toList_iff_getElem?_eq_some.2 h, rfl⟩

/-- A map made of a listing without repeated keys gives the listing back. -/
theorem getElem?_ofList_eq_some_iff [LawfulEqCmp cmp] [BEq α] [LawfulBEq α] {rank : β → α}
    {l : List β} (h : l.Pairwise fun u v => rank u ≠ rank v) {i : α} {v : β} :
    (ExtTreeMap.ofList (l.map fun v => (rank v, v)) cmp)[i]? = some v ↔ v ∈ l ∧ rank v = i := by
  have hdistinct : (l.map fun v => (rank v, v)).Pairwise fun p q => ¬ cmp p.1 q.1 = .eq :=
    List.pairwise_map.2 (h.imp fun hne heq => hne (LawfulEqCmp.eq_of_compare heq))
  constructor
  · intro hv
    by_cases hi : ∃ u ∈ l, rank u = i
    · obtain ⟨u, hu, rfl⟩ := hi
      rw [ExtTreeMap.getElem?_ofList_of_mem ReflCmp.compare_self hdistinct
        (List.mem_map.2 ⟨u, hu, rfl⟩)] at hv
      rw [← Option.some.inj hv]
      exact ⟨hu, rfl⟩
    · rw [ExtTreeMap.getElem?_ofList_of_contains_eq_false (by simpa [eq_comm] using hi)] at hv
      cases hv
  · rintro ⟨hv, rfl⟩
    exact ExtTreeMap.getElem?_ofList_of_mem ReflCmp.compare_self hdistinct
      (List.mem_map.2 ⟨v, hv, rfl⟩)

/-- Of the values put under one key the last one counts. -/
theorem getElem?_foldl_insert_rank [LawfulEqCmp cmp] [BEq α] [LawfulBEq α] (rank : β → α) (i : α) :
    ∀ (l : List β) (m : ExtTreeMap α β cmp),
      (l.foldl (fun m b => m.insert (rank b) b) m)[i]?
        = (l.reverse.find? (rank · == i)).or m[i]?
  | [], _ => rfl
  | b :: l, m => by
    rw [List.foldl_cons, getElem?_foldl_insert_rank rank i l, List.reverse_cons, List.find?_append,
      ExtTreeMap.getElem?_insert, List.find?_singleton, Option.or_assoc]
    by_cases hi : rank b = i
    · simp [hi]
    · have hne : cmp (rank b) i ≠ .eq := fun heq => hi (LawfulEqCmp.eq_of_compare heq)
      simp [hi, hne]

end Maps

section Ids

variable {β : Type} {m : ExtTreeMap Nat β}

theorem toList_ascending (m : ExtTreeMap Nat β) :
    m.toList.Pairwise fun p q => p.1 < q.1 :=
  ExtTreeMap.ordered_keys_toList.imp fun h => Nat.compare_eq_lt.1 h

/-- Where each value knows the key it is under, the listing goes up by it. -/
theorem values_ascending {rank : β → Nat} (h : ∀ (k : Nat) v, m[k]? = some v → rank v = k) :
    m.values.Pairwise fun u v => rank u < rank v := by
  rw [values_eq_map_toList, List.pairwise_map]
  refine (toList_ascending m).imp_of_mem fun {p q} hp hq hpq => ?_
  rw [h _ _ (ExtTreeMap.mem_toList_iff_getElem?_eq_some.1 hp),
    h _ _ (ExtTreeMap.mem_toList_iff_getElem?_eq_some.1 hq)]
  exact hpq

/-- Such a value is found in the listing by its key. -/
theorem find?_values {rank : β → Nat} (h : ∀ (k : Nat) v, m[k]? = some v → rank v = k) (k : Nat) :
    m.values.find? (rank · == k) = m[k]? := by
  rcases hk : m[k]? with _ | v
  · rw [List.find?_eq_none]
    rintro u hu heq
    obtain ⟨i, hi⟩ := mem_values.1 hu
    rw [h i u hi, beq_iff_eq] at heq
    rw [← heq, hi] at hk
    cases hk
  · have hmem : v ∈ m.values := mem_values.2 ⟨k, hk⟩
    rcases hf : m.values.find? (rank · == k) with _ | u
    · exact absurd (h k v hk) (by simpa using List.find?_eq_none.1 hf v hmem)
    · obtain ⟨i, hi⟩ := mem_values.1 (List.mem_of_find?_eq_some hf)
      have huk : rank u = k := by simpa using List.find?_some hf
      rw [← huk, h i u hi, hi] at hk
      exact hk

theorem eq_of_values_eq {m' : ExtTreeMap Nat β} {rank : β → Nat}
    (h : ∀ (k : Nat) v, m[k]? = some v → rank v = k)
    (h' : ∀ (k : Nat) v, m'[k]? = some v → rank v = k) (heq : m.values = m'.values) : m = m' := by
  refine ExtTreeMap.ext_getElem? fun k => ?_
  rw [← find?_values h k, ← find?_values h' k, heq]

theorem values_insert_of_forall_lt {k : Nat} {v : β} (h : ∀ (i : Nat) u, m[i]? = some u → i < k) :
    (m.insert k v).values = m.values ++ [v] := by
  have hlist : (m.insert k v).toList = m.toList ++ [(k, v)] := by
    refine eq_of_ascending Prod.fst (toList_ascending _) ?_ fun p => ?_
    · refine List.pairwise_append.2 ⟨toList_ascending m, List.pairwise_singleton _ _, ?_⟩
      intro p hp q hq
      rw [List.mem_singleton.1 hq]
      exact h _ _ (ExtTreeMap.mem_toList_iff_getElem?_eq_some.1 hp)
    · obtain ⟨i, u⟩ := p
      simp only [ExtTreeMap.mem_toList_iff_getElem?_eq_some, List.mem_append,
        List.mem_singleton, Prod.mk.injEq, ExtTreeMap.getElem?_insert, Nat.compare_eq_eq]
      by_cases hik : k = i
      · subst hik
        simp only [↓reduceIte, Option.some.injEq, true_and]
        refine ⟨fun hu => .inr hu.symm, fun hu => ?_⟩
        rcases hu with hu | hu
        · exact absurd (h _ _ hu) (Nat.lt_irrefl _)
        · exact hu.symm
      · simp [hik, Ne.symm hik]
  rw [values_eq_map_toList, hlist, List.map_append, ← values_eq_map_toList]
  rfl

end Ids

/-- Setting a property leaves those of other names alone. -/
theorem Properties.getElem?_insert_of_ne {ps : Properties} {key k : String} (h : k ≠ key)
    (value : String) : (ps.insert key value)[k]? = ps[k]? := by
  rw [ExtTreeMap.getElem?_insert, if_neg]
  rw [Std.compare_eq_iff_eq]
  exact h.symm

end Lineage
