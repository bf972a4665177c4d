import Lineage.Proofs.Distances
import Lineage.Proofs.Histories
import Lineage.Proofs.Searching
import Mathlib.Data.List.Perm.Subperm

/-!
# What an expansion meets

In a well-formed graph an expansion does not fail, and it meets just the vertices within the number
of hops, each once and at its distance from the start, nearer ones first (`exists_expandBy`). When
the walks of a level are visited, all nearer vertices have been met, and the walks end in vertices
no farther than the level, all that are just that far among them (`Expansion.Level`). An extension
is left out only if it leads back to what has been met, so the vertices next in distance are reached
whichever rule decides that, and no walk meets a vertex twice. So no level as deep as the graph has
vertices is left with a walk (`Level.eq_nil`), and the expansion ends whatever the number of hops.
So the search for a container finds none only where there is none
(`Graph.WellFormed.nearestContainer_eq_none_iff`).
-/

namespace Lineage

/-- An edge that an expansion follows leads from one vertex to another. -/
def ExpansionRule.Hop (rule : ExpansionRule) (g : Graph) : VertexId → VertexId → Prop :=
  g.Leads rule.direction rule.accepts

theorem isMet_iff {met : List Reached} {x : VertexId} :
    isMet met x = true ↔ ∃ r ∈ met, r.vertex.id = x := by
  simp [isMet]

theorem isMet_append {met met' : List Reached} {x : VertexId} (h : isMet met x = true) :
    isMet (met ++ met') x = true := by
  simp only [isMet, List.any_append, Bool.or_eq_true] at h ⊢
  exact .inl h

/-- The vertices met and the walks left after a number of levels. -/
def advance {γ : Type} [Readable γ] (g : γ) (rule : ExpansionRule) :
    ℕ → List Reached → List Walk → Except StoreError (List Reached × List Walk)
  | 0, met, ws => .ok (met, ws)
  | levels + 1, met, ws => do
    let (met, longer) ← visitLevel g rule true met ws
    advance g rule levels met longer

/-- Without walks there is nothing to visit. -/
theorem advance_nil {γ : Type} [Readable γ] (g : γ) (rule : ExpansionRule) (met : List Reached) :
    ∀ levels, advance g rule levels met [] = .ok (met, [])
  | 0 => rfl
  | levels + 1 => advance_nil g rule met levels

theorem advance_add {γ : Type} [Readable γ] (g : γ) (rule : ExpansionRule) (levels : ℕ) :
    ∀ (more : ℕ) (met : List Reached) (ws : List Walk), advance g rule (more + levels) met ws
      = advance g rule more met ws >>= fun p => advance g rule levels p.1 p.2
  | 0, met, ws => by
    rw [Nat.zero_add]
    rfl
  | more + 1, met, ws => by
    rw [Nat.add_right_comm, advance, advance, bind_assoc]
    exact bind_congr fun p => advance_add g rule levels more p.1 p.2

/-- The walks left after as many levels as there are hops are visited, and not extended. -/
theorem visitLevels_eq {γ : Type} [Readable γ] (g : γ) (rule : ExpansionRule) :
    ∀ (hops : ℕ) (met : List Reached) (ws : List Walk), visitLevels g rule hops met ws
      = advance g rule hops met ws >>= fun p => (visitLevel g rule false p.1 p.2).map Prod.fst
  | hops, met, [] => by
    rw [advance_nil]
    cases hops <;> rfl
  | 0, met, w :: ws => by
    rw [visitLevels]
    · rfl
    · simp
  | hops + 1, met, w :: ws => by
    rw [visitLevels, advance, bind_assoc]
    · exact bind_congr fun p => visitLevels_eq g rule hops p.1 p.2
    · simp

namespace Expansion

variable {g : Graph} {rule : ExpansionRule} {start : VertexId} {n : ℕ} {met met' : List Reached}
  {w : Walk}

/-- What has been met while the vertices at a distance are looked for. -/
structure Found (g : Graph) (rule : ExpansionRule) (start : VertexId) (n : ℕ)
    (met : List Reached) : Prop where
  sound : ∀ r ∈ met, r.vertex ∈ allVertices g ∧ r.depth ≤ n
    ∧ AtDistance (rule.Hop g) start r.depth r.vertex.id
  distinct : (met.map fun r => r.vertex.id).Nodup
  ascending : met.Pairwise fun r s => r.depth ≤ s.depth
  complete : ∀ m < n, ∀ y, AtDistance (rule.Hop g) start m y → isMet met y = true

/-- A walk of a level leads through vertices that have been met, to none of them twice. -/
structure OnLevel (g : Graph) (rule : ExpansionRule) (start : VertexId) (n : ℕ)
    (met : List Reached) (w : Walk) : Prop where
  depth_eq : w.depth = n
  inSteps : InSteps (rule.Hop g) start n w.last
  mem : ∃ v ∈ allVertices g, v.id = w.last
  before_met : ∀ x ∈ w.before, isMet met x = true
  nodup : w.vertices.Nodup

/-- The walks of a level are about to be visited. -/
structure Level (g : Graph) (rule : ExpansionRule) (start : VertexId) (n : ℕ)
    (met : List Reached) (ws : List Walk) : Prop where
  found : Found g rule start n met
  walks : ∀ w ∈ ws, OnLevel g rule start n met w
  reached : ∀ y, AtDistance (rule.Hop g) start n y → ∃ w ∈ ws, w.last = y

theorem OnLevel.mono (hw : OnLevel g rule start n met w) (h : met <+: met') :
    OnLevel g rule start n met' w := by
  obtain ⟨rest, rfl⟩ := h
  exact { hw with before_met := fun x hx => isMet_append (hw.before_met x hx) }

theorem OnLevel.isMet_of_mem (hw : OnLevel g rule start n met w) (hlast : isMet met w.last = true)
    {x : VertexId} (hx : x ∈ w.vertices) : isMet met x = true := by
  rcases List.mem_cons.1 hx with rfl | hx
  · exact hlast
  · exact hw.before_met x hx

namespace Found

/-- What is farther than the level has not been met. -/
theorem not_isMet (h : Found g rule start n met) {y : VertexId}
    (hy : AtDistance (rule.Hop g) start (n + 1) y) : isMet met y ≠ true := by
  intro hmet
  obtain ⟨r, hr, rfl⟩ := isMet_iff.1 hmet
  obtain ⟨-, hle, hdist⟩ := h.sound r hr
  have := hdist.unique hy
  omega

/-! ## One walk -/

theorem exists_meetEnd (h : Found g rule start n met) (hg : g.WellFormed)
    (hw : OnLevel g rule start n met w) : ∃ met', meetEnd g met w = .ok met' ∧ met <+: met'
      ∧ Found g rule start n met' ∧ isMet met' w.last = true := by
  unfold meetEnd
  split_ifs with hmet
  · exact ⟨met, rfl, List.prefix_rfl, h, hmet⟩
  obtain ⟨v, hv, hid⟩ := hw.mem
  obtain ⟨m, hm, hdist⟩ := hw.inSteps.exists_atDistance
  -- all that is nearer has been met, so the walk is a shortest one
  obtain rfl : m = n := by
    by_contra hne
    exact hmet (h.complete m (by omega) _ hdist)
  refine ⟨met ++ [⟨v, w.depth⟩], ?_, List.prefix_append _ _, ⟨?_, ?_, ?_, ?_⟩, ?_⟩
  · rw [← hid, hg.requireVertex_of_mem hv]
    rfl
  · intro r hr
    rcases List.mem_append.1 hr with hr | hr
    · exact h.sound r hr
    · rw [List.mem_singleton.1 hr]
      exact ⟨hv, hw.depth_eq.le, by rw [hw.depth_eq, hid]; exact hdist⟩
  · rw [List.map_append, List.map_singleton, ← List.concat_eq_append, List.nodup_concat]
    refine ⟨fun hmem => ?_, h.distinct⟩
    obtain ⟨r, hr, heq⟩ := List.mem_map.1 hmem
    exact hmet (isMet_iff.2 ⟨r, hr, heq.trans hid⟩)
  · refine List.pairwise_append.2 ⟨h.ascending, List.pairwise_singleton _ _, fun r hr s hs => ?_⟩
    rw [List.mem_singleton.1 hs, hw.depth_eq]
    exact (h.sound r hr).2.1
  · exact fun k hk y hy => isMet_append (h.complete k hk y hy)
  · exact isMet_iff.2 ⟨⟨v, w.depth⟩, by simp, hid⟩

/-- What is one hop farther than the end of a walk is the end of an extension. -/
theorem exists_extension (h : Found g rule start n met) (hg : g.Coherent)
    (hw : OnLevel g rule start n met w) (hlast : isMet met w.last = true) {y : VertexId}
    (hhop : rule.Hop g w.last y) (hy : AtDistance (rule.Hop g) start (n + 1) y) :
    ∃ w' ∈ extensions g rule met w, w'.last = y := by
  obtain ⟨e, he, haccepts, hleads⟩ := hhop
  obtain ⟨hinc, rfl⟩ := hg.mem_incident_iff.2 ⟨he, hleads⟩
  have hnew := h.not_isMet hy
  have hopen : (if rule.simplePaths = true then w.vertices.contains (e.other w.last)
      else isMet met (e.other w.last)) = false := by
    split_ifs
    · rw [Bool.eq_false_iff, Ne, List.contains_iff_mem]
      exact fun hmem => hnew (hw.isMet_of_mem hlast hmem)
    · exact Bool.eq_false_iff.2 hnew
  refine ⟨w.extend (e.other w.last), ?_, rfl⟩
  refine List.mem_filterMap.2 ⟨e, List.mem_filter.2 ⟨hinc, haccepts⟩, ?_⟩
  simp only [hopen]
  rfl

end Found

theorem OnLevel.extension (hw : OnLevel g rule start n met w) (hg : g.WellFormed)
    (hlast : isMet met w.last = true) {w' : Walk} (hw' : w' ∈ extensions g rule met w) :
    OnLevel g rule start (n + 1) met w' := by
  obtain ⟨e, he, hnext⟩ := List.mem_filterMap.1 hw'
  obtain ⟨hinc, haccepts⟩ := List.mem_filter.1 he
  simp only [Option.ite_none_left_eq_some] at hnext
  obtain ⟨hopen, hnext⟩ := hnext
  obtain rfl := Option.some.inj hnext
  have hnew : e.other w.last ∉ w.vertices := by
    intro hmem
    refine hopen ?_
    split_ifs
    · exact List.contains_iff_mem.2 hmem
    · exact hw.isMet_of_mem hlast hmem
  obtain ⟨hmem, hleads⟩ := hg.mem_incident_iff.1 ⟨hinc, rfl⟩
  exact {
    depth_eq := congrArg (· + 1) hw.depth_eq
    inSteps := hw.inSteps.succ ⟨e, hmem, haccepts, hleads⟩
    mem := hg.exists_other hmem _
    before_met := fun x hx => hw.isMet_of_mem hlast hx
    nodup := List.nodup_cons.2 ⟨hnew, hw.nodup⟩ }

/-! ## One level -/

theorem Found.exists_visitLevel (hg : g.WellFormed) (onward : Bool) : ∀ (ws : List Walk)
    {met : List Reached}, Found g rule start n met → (∀ w ∈ ws, OnLevel g rule start n met w) →
      ∃ met' rest, visitLevel g rule onward met ws = .ok (met', rest) ∧ met <+: met'
        ∧ Found g rule start n met' ∧ (∀ w ∈ ws, isMet met' w.last = true)
        ∧ (∀ w ∈ rest, OnLevel g rule start (n + 1) met' w)
        ∧ (onward = true → ∀ w ∈ ws, ∀ y, rule.Hop g w.last y →
          AtDistance (rule.Hop g) start (n + 1) y → ∃ w' ∈ rest, w'.last = y)
  | [], met, h, _ => ⟨met, [], rfl, List.prefix_rfl, h, by simp, by simp, by simp⟩
  | w :: ws, met, h, hws => by
    have hw := hws w List.mem_cons_self
    obtain ⟨met₁, hmeet, hprefix₁, h₁, hlast₁⟩ := h.exists_meetEnd hg hw
    have hw₁ := hw.mono hprefix₁
    obtain ⟨met₂, rest, hvisit, hprefix₂, h₂, hmet, hrest, hnext⟩ := exists_visitLevel hg onward ws
      h₁ fun w' hw' => (hws w' (List.mem_cons_of_mem _ hw')).mono hprefix₁
    obtain ⟨more, rfl⟩ := hprefix₂
    refine ⟨_, (if onward then extensions g rule met₁ w else []) ++ rest, ?_,
      hprefix₁.trans (List.prefix_append _ _), h₂, ?_, ?_, ?_⟩
    · rw [visitLevel, bind_of_ok hmeet]
      exact bind_of_ok hvisit _
    · exact List.forall_mem_cons.2 ⟨isMet_append hlast₁, hmet⟩
    · intro w' hw'
      rcases List.mem_append.1 hw' with hw' | hw'
      · cases onward
        · simp at hw'
        · exact (hw₁.extension hg hlast₁ hw').mono (List.prefix_append _ _)
      · exact hrest w' hw'
    · rintro rfl
      refine List.forall_mem_cons.2 ⟨fun y hhop hy => ?_, fun w' hw' y hhop hy => ?_⟩
      · obtain ⟨w', hw', heq⟩ := h₁.exists_extension hg.toCoherent hw₁ hlast₁ hhop hy
        exact ⟨w', List.mem_append_left _ hw', heq⟩
      · obtain ⟨w'', hw'', heq⟩ := hnext rfl w' hw' y hhop hy
        exact ⟨w'', List.mem_append_right _ hw'', heq⟩

namespace Level

variable {ws : List Walk}

/-- Once the walks of a level have been visited, all that is as far as the level has been met. -/
theorem isMet_of_visited (h : Level g rule start n met ws)
    (hmet : ∀ w ∈ ws, isMet met' w.last = true) {y : VertexId}
    (hy : AtDistance (rule.Hop g) start n y) : isMet met' y = true := by
  obtain ⟨w, hw, rfl⟩ := h.reached y hy
  exact hmet w hw

theorem exists_next (h : Level g rule start n met ws) (hg : g.WellFormed) :
    ∃ met' rest, visitLevel g rule true met ws = .ok (met', rest)
      ∧ Level g rule start (n + 1) met' rest := by
  obtain ⟨met', rest, hvisit, -, hfound, hmet, hrest, hnext⟩ :=
    h.found.exists_visitLevel hg true ws h.walks
  refine ⟨met', rest, hvisit, { hfound with sound := ?_, complete := ?_ }, hrest, fun y hy => ?_⟩
  · intro r hr
    obtain ⟨hv, hle, hdist⟩ := hfound.sound r hr
    exact ⟨hv, by omega, hdist⟩
  · intro m hm y hy
    rcases Nat.lt_succ_iff_lt_or_eq.1 hm with hm | rfl
    · exact hfound.complete m hm y hy
    · exact h.isMet_of_visited hmet hy
  · obtain ⟨z, hz, hhop⟩ := hy.exists_prev
    obtain ⟨w, hw, rfl⟩ := h.reached z hz
    exact hnext rfl w hw y hhop hy

/-! ## All levels -/

theorem exists_advance (hg : g.WellFormed) : ∀ (levels : ℕ) {n : ℕ} {met : List Reached}
    {ws : List Walk}, Level g rule start n met ws →
      ∃ met' ws', advance g rule levels met ws = .ok (met', ws')
        ∧ Level g rule start (n + levels) met' ws'
  | 0, n, met, ws, h => ⟨met, ws, rfl, h⟩
  | levels + 1, n, met, ws, h => by
    obtain ⟨met₁, ws₁, hvisit, h₁⟩ := h.exists_next hg
    obtain ⟨met₂, ws₂, hadvance, h₂⟩ := exists_advance hg levels h₁
    refine ⟨met₂, ws₂, (bind_of_ok hvisit _).trans hadvance, ?_⟩
    rwa [Nat.add_right_comm] at h₂

/-- A walk of a level meets more vertices than the level is deep, all of the graph. -/
theorem eq_nil (h : Level g rule start n met ws) (hn : (allVertices g).length ≤ n) : ws = [] := by
  refine List.eq_nil_iff_forall_not_mem.2 fun w hw => ?_
  have hwalk := h.walks w hw
  have hsub : w.vertices ⊆ (allVertices g).map Vertex.id := by
    intro x hx
    rcases List.mem_cons.1 hx with rfl | hx
    · obtain ⟨v, hv, hid⟩ := hwalk.mem
      exact List.mem_map.2 ⟨v, hv, hid⟩
    · obtain ⟨r, hr, rfl⟩ := isMet_iff.1 (hwalk.before_met x hx)
      exact List.mem_map_of_mem (h.found.sound r hr).1
  have hle := (hwalk.nodup.subperm hsub).length_le
  have hdepth := hwalk.depth_eq
  simp only [Walk.vertices, Walk.depth, List.length_cons, List.length_map] at hle hdepth
  omega

end Level

theorem level_start (rule : ExpansionRule) {v : Vertex} (hv : v ∈ allVertices g) :
    Level g rule v.id 0 [] [⟨v.id, []⟩] where
  found := ⟨by simp, by simp, by simp, by simp⟩
  walks w hw := by
    rw [List.mem_singleton.1 hw]
    exact ⟨rfl, .zero, ⟨v, hv, rfl⟩, by simp, by simp [Walk.vertices]⟩
  reached y hy := ⟨_, List.mem_cons_self, hy.eq_of_zero.symm⟩

end Expansion

/-! ## The expansion -/

/-- The vertices within a number of hops of a start, each once and with its distance. -/
structure Expanded (g : Graph) (rule : ExpansionRule) (start : Vertex) (maxHops : ℕ)
    (met : List Reached) : Prop where
  head : met.head? = some ⟨start, 0⟩
  distinct : (met.map fun r => r.vertex.id).Nodup
  ascending : met.Pairwise fun r s => r.depth ≤ s.depth
  mem_iff : ∀ v n, ⟨v, n⟩ ∈ met
    ↔ v ∈ allVertices g ∧ n ≤ maxHops ∧ AtDistance (rule.Hop g) start.id n v.id

namespace Expansion

variable {g : Graph} {rule : ExpansionRule} {maxHops : ℕ} {met : List Reached} {start : Vertex}

theorem Found.expanded (h : Found g rule start.id maxHops met) (hg : g.Coherent)
    (hstart : start ∈ allVertices g)
    (hlast : ∀ y, AtDistance (rule.Hop g) start.id maxHops y → isMet met y = true) :
    Expanded g rule start maxHops met := by
  have hmem : ∀ v n, ⟨v, n⟩ ∈ met
      ↔ v ∈ allVertices g ∧ n ≤ maxHops ∧ AtDistance (rule.Hop g) start.id n v.id := by
    intro v n
    refine ⟨fun hr => h.sound ⟨v, n⟩ hr, fun ⟨hv, hn, hdist⟩ => ?_⟩
    have hmet : isMet met v.id = true := by
      rcases Nat.lt_or_eq_of_le hn with hlt | rfl
      · exact h.complete n hlt _ hdist
      · exact hlast _ hdist
    obtain ⟨⟨u, m⟩, hr, hid⟩ := isMet_iff.1 hmet
    obtain ⟨hu, -, hdist'⟩ := h.sound _ hr
    obtain rfl : u = v := hg.eq_of_vertex_id hu hv hid
    obtain rfl : m = n := hdist'.unique hdist
    exact hr
  have hfirst : ⟨start, 0⟩ ∈ met := (hmem _ _).2 ⟨hstart, Nat.zero_le _, atDistance_self⟩
  refine ⟨?_, h.distinct, h.ascending, hmem⟩
  -- nothing comes before the start, as nothing but the start is at distance zero
  cases met with
  | nil => cases hfirst
  | cons r rest =>
    have hle : r.depth ≤ 0 := by
      rcases List.mem_cons.1 hfirst with rfl | hmem
      · exact le_rfl
      · exact (List.pairwise_cons.1 h.ascending).1 _ hmem
    obtain ⟨v, n⟩ := r
    obtain rfl : n = 0 := Nat.le_zero.1 hle
    obtain ⟨hv, -, hdist⟩ := h.sound _ List.mem_cons_self
    obtain rfl := hg.eq_of_vertex_id hv hstart hdist.eq_of_zero
    rfl

end Expansion

open Expansion

section Expanding

variable {g : Graph} (rule : ExpansionRule) (maxHops : ℕ) {start : Vertex}

theorem exists_expandBy (hg : g.WellFormed) (hstart : start ∈ allVertices g) :
    ∃ met, expandBy g rule start.id maxHops = .ok met ∧ Expanded g rule start maxHops met := by
  obtain ⟨met, ws, hadvance, hlevel⟩ :=
    Level.exists_advance hg maxHops (level_start rule hstart)
  rw [Nat.zero_add] at hlevel
  obtain ⟨met', rest, hvisit, -, hfound, hmet, -, -⟩ :=
    hlevel.found.exists_visitLevel hg false ws hlevel.walks
  have hlast : ∀ y, AtDistance (rule.Hop g) start.id maxHops y → isMet met' y = true :=
    fun y hy => hlevel.isMet_of_visited hmet hy
  refine ⟨met', ?_, hfound.expanded hg.toCoherent hstart hlast⟩
  rw [expandBy, visitLevels_eq, bind_of_ok hadvance, hvisit]
  rfl

/-- After as many levels as there are vertices no walk is left. -/
theorem exists_advance_eq_nil (hg : g.WellFormed) (hstart : start ∈ allVertices g) :
    ∃ met, advance g rule (allVertices g).length [] [⟨start.id, []⟩] = .ok (met, []) := by
  obtain ⟨met, ws, hadvance, hlevel⟩ :=
    Level.exists_advance hg (allVertices g).length (level_start rule hstart)
  exact ⟨met, by rw [hadvance, hlevel.eq_nil (by omega)]⟩

theorem expandBy_of_advance_eq_nil {levels : ℕ} {met : List Reached} {x : VertexId}
    (h : advance g rule levels [] [⟨x, []⟩] = .ok (met, [])) (hle : levels ≤ maxHops) :
    expandBy g rule x maxHops = .ok met := by
  obtain ⟨more, rfl⟩ := Nat.exists_eq_add_of_le hle
  rw [expandBy, visitLevels_eq, advance_add, bind_of_ok h, advance_nil]
  rfl

/-- In a graph with any history an expansion meets the vertices within the number of hops, each
once and at its distance. It has come to its end after as many levels as the graph has vertices,
however many more hops are allowed. -/
theorem expandBy_after (name : String) (history : List Episode) (rule : ExpansionRule)
    (start : Vertex) (hstart : start ∈ allVertices ((Graph.empty name).after history)) :
    let g := (Graph.empty name).after history
    (∀ maxHops, ∃ met, expandBy g rule start.id maxHops = .ok met
      ∧ Expanded g rule start maxHops met)
    ∧ ∃ met, advance g rule (allVertices g).length [] [⟨start.id, []⟩] = .ok (met, [])
      ∧ ∀ maxHops ≥ (allVertices g).length, expandBy g rule start.id maxHops = .ok met := by
  intro g
  have hg : g.WellFormed := wellFormed_after_empty name history
  obtain ⟨met, hmet⟩ := exists_advance_eq_nil rule hg hstart
  exact ⟨fun maxHops => exists_expandBy rule maxHops hg hstart, met, hmet,
    fun maxHops hle => expandBy_of_advance_eq_nil rule maxHops hmet hle⟩

end Expanding

/-- A ring of three vertices with an edge between two of them repeated, a loop at one, and a way
out of the ring. -/
def sampleRing : List Episode :=
  [⟨(List.range 4).map (fun _ => .addVertex "Column" ∅)
    ++ ([(0, 1), (0, 1), (1, 1), (1, 2), (2, 0), (2, 3)].map fun (s, t) =>
      .addEdge "ColumnAndProcess" s t ∅), .commit⟩]

theorem expandBy_after_sampleRing :
    let g := (Graph.empty "main").after sampleRing
    let rule : ExpansionRule := ⟨.outward, Edge.matches none, true⟩
    let start : Vertex := ⟨0, "Column", ∅⟩
    start ∈ allVertices g
    ∧ (∀ maxHops, ∃ met, expandBy g rule 0 maxHops = .ok met
      ∧ Expanded g rule start maxHops met)
    ∧ ∃ met, advance g rule (allVertices g).length [] [⟨0, []⟩] = .ok (met, [])
      ∧ ∀ maxHops ≥ (allVertices g).length, expandBy g rule 0 maxHops = .ok met := by
  intro g rule start
  have hstart : start ∈ allVertices g := by decide +kernel
  exact ⟨hstart, expandBy_after "main" sampleRing rule start hstart⟩

/-- Both ways round the ring count, so no vertex in it is farther than one hop. -/
example : (expandBy ((Graph.empty "main").after sampleRing) ⟨.both, Edge.matches none, false⟩ 0
    (2 ^ 64 - 1)).toOption.map (fun met => met.map fun r => (r.vertex.id, r.depth))
      = some [(0, 0), (1, 1), (2, 1), (3, 2)] := by
  decide +kernel

/-! ## Containers -/

namespace Graph

open Consolidation

variable {g : Graph} {start : Vertex}

/-- A search for a container follows an edge either way, unless its label is one of those that do
not lead to a container. -/
theorem structuralRule_hop_iff {x y : VertexId} : structuralRule.Hop g x y
    ↔ ∃ e ∈ allEdges g, e.label ∉ TypeName.nonStructural
      ∧ (e.source = x ∧ e.target = y ∨ e.target = x ∧ e.source = y) := by
  simp only [ExpansionRule.Hop, Leads, structuralRule, TypeName.isStructural_iff, Edge.Leads]

/-- A vertex that is wanted lies around another one, within a number of structural hops. -/
def HasContainer (g : Graph) (start : Vertex) (wanted : String → Bool) (maxHops : ℕ) : Prop :=
  ∃ u ∈ allVertices g, wanted u.label = true
    ∧ ∃ n, 0 < n ∧ n ≤ maxHops ∧ AtDistance (structuralRule.Hop g) start.id n u.id

theorem exists_nearestContainer_eq (h : g.WellFormed) (hstart : start ∈ allVertices g)
    (wanted : String → Bool) (maxHops : ℕ) : ∃ met, Expanded g structuralRule start maxHops met
      ∧ nearestContainer g start.id wanted maxHops
        = .ok ((met.find? fun r => 0 < r.depth && wanted r.vertex.label).map (·.vertex)) := by
  obtain ⟨met, hmet, hexpanded⟩ := exists_expandBy structuralRule maxHops h hstart
  exact ⟨met, hexpanded, bind_of_ok hmet _⟩

theorem WellFormed.exists_nearestContainer (h : g.WellFormed) {v : Vertex} (hv : v ∈ allVertices g)
    (wanted : String → Bool) (maxHops : Nat) :
    ∃ found, nearestContainer g v.id wanted maxHops = .ok found
      ∧ ∀ u, found = some u → u ∈ allVertices g ∧ wanted u.label = true := by
  obtain ⟨met, hexpanded, heq⟩ := exists_nearestContainer_eq h hv wanted maxHops
  refine ⟨_, heq, fun u hu => ?_⟩
  obtain ⟨r, hr, rfl⟩ := Option.map_eq_some_iff.1 hu
  have hwanted := List.find?_some hr
  rw [Bool.and_eq_true] at hwanted
  exact ⟨((hexpanded.mem_iff _ _).1 (List.mem_of_find?_eq_some hr)).1, hwanted.2⟩

/-- Nothing is found only where there is nothing. -/
theorem WellFormed.nearestContainer_eq_none_iff (h : g.WellFormed) (hstart : start ∈ allVertices g)
    (wanted : String → Bool) (maxHops : ℕ) : nearestContainer g start.id wanted maxHops = .ok none
      ↔ ¬ g.HasContainer start wanted maxHops := by
  obtain ⟨met, hexpanded, heq⟩ := exists_nearestContainer_eq h hstart wanted maxHops
  rw [heq, Except.ok.injEq, Option.map_eq_none_iff, List.find?_eq_none]
  constructor
  · rintro hnone ⟨u, hu, hwanted, n, hpos, hle, hdist⟩
    exact hnone _ ((hexpanded.mem_iff u n).2 ⟨hu, hle, hdist⟩) (by simp [hpos, hwanted])
  · rintro hfree r hr hfound
    obtain ⟨hmem, hle, hdist⟩ := (hexpanded.mem_iff _ _).1 hr
    rw [Bool.and_eq_true, decide_eq_true_iff] at hfound
    exact hfree ⟨r.vertex, hmem, hfound.2, r.depth, hfound.1, hle, hdist⟩

end Graph

end Lineage
