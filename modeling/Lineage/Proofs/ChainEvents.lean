import Lineage.Proofs.Accounting
import Lineage.Proofs.Conformance
import Lineage.Proofs.Containers
import Lineage.Proofs.JsonText
import Lineage.Proofs.Outcomes
import Lineage.Synthetic

/-!
# The events of a synthetic chain

The guids of a chain tell what they stand for by a letter (`SyntheticChain.role`) and which by their
numbers (`columnGuid_injective`), and none is the node id of a sub-process. Every event of a chain
refers to what came before, so the buffer graph lets in all of them (`letIn_events`) and records no
more than they say (`records_buffer`). In it each column is enclosed by its own table
(`enclosed_column`), and nothing is assigned to a term.
-/

namespace Lineage

open Std Consolidation

/-! ## Events that refer to what came before -/

/-- The guid that an event makes known. -/
def Event.introduced? (e : Event) : Option String := e.entity?.map Entity.guid

/-- The ends of every relationship among some events are known when it comes. -/
def Grounded : (String → Prop) → List Event → Prop
  | _, [] => True
  | known, e :: es => (∀ r, e = .newRelationship r → known r.endOne ∧ known r.endTwo)
    ∧ Grounded (fun n => known n ∨ e.introduced? = some n) es

theorem Grounded.mono : ∀ {es : List Event} {known known' : String → Prop},
    (∀ n, known n → known' n) → Grounded known es → Grounded known' es
  | [], _, _, _, _ => trivial
  | _ :: _, _, _, hle, ⟨hends, hes⟩ =>
    ⟨fun r hr => (hends r hr).imp (hle _) (hle _), hes.mono fun n => Or.imp_left (hle n)⟩

theorem Grounded.append : ∀ {es later : List Event} {known : String → Prop}, Grounded known es →
    Grounded (fun n => known n ∨ ∃ e ∈ es, e.introduced? = some n) later →
      Grounded known (es ++ later)
  | [], _, _, _, hlater => hlater.mono fun n => by simp
  | e :: es, _, _, ⟨hends, hes⟩, hlater =>
    ⟨hends, hes.append (hlater.mono fun n => by simp [or_assoc])⟩

/-- No event is refused that refers to what came before. -/
theorem Buffer.letIn_of_grounded : ∀ (es : List Event) {g : Graph} {known : String → Prop},
    g.Identified → (∀ n, known n → g.HasInstance n) → Grounded known es → letIn g es = es
  | [], _, _, _, _, _ => rfl
  | e :: es, g, known, hg, hknown, ⟨hends, hes⟩ => by
    rcases apply_cases hg e with ⟨err, happly⟩ | ⟨name, g', happly, hg', hkeeps, hknows, -⟩
    · obtain ⟨r, n, rfl, hn, -⟩ := (apply_eq_error_iff hg.toWellFormed).1 happly
      have hunknown := List.find?_some hn
      have hmem := List.mem_of_find?_eq_some hn
      rw [hg.all_guid_ne, Option.isNone_iff_eq_none] at hunknown
      simp only [List.mem_cons, List.not_mem_nil, or_false] at hmem
      have hn : known n := by
        rcases hmem with rfl | rfl
        · exact (hends r rfl).1
        · exact (hends r rfl).2
      obtain ⟨v, hv⟩ := hg.finds_iff.2 (hknown n hn)
      exact absurd (hunknown.symm.trans hv) (by simp)
    · rw [(cons_of_ok happly es).2]
      refine congrArg (e :: ·) (letIn_of_grounded es hg' ?_ hes)
      rintro n (hn | hn)
      · obtain ⟨v, hv, hguid⟩ := hknown n hn
        obtain ⟨v', hv', -, -, hguid'⟩ := hkeeps.vertex v hv
        exact ⟨v', hv', hguid'.trans hguid⟩
      · obtain ⟨entity, hentity, rfl⟩ := Option.map_eq_some_iff.1 hn
        exact (Graph.knows_iff_of_entity hentity).1 hknows

/-- A relationship that is recorded is known. -/
theorem Graph.Records.knows_of_mem {g : Graph} {acc : List Event} (h : g.Records acc)
    {r : Relationship} (hr : .newRelationship r ∈ acc) : g.Knows (.newRelationship r) := by
  have hmem : r ∈ relationshipsOf r.type r.endOne r.endTwo acc :=
    List.mem_filter.2 ⟨List.mem_filterMap.2 ⟨_, hr, rfl⟩, by simp⟩
  obtain ⟨e, he, hlabel, u, hu, v, hv, hone, htwo, hsource, htarget⟩ :=
    h.edge_exists _ _ _ _ (List.head?_eq_some_head (List.ne_nil_of_mem hmem))
  exact ⟨u, hu, v, hv, hone, htwo, e, he, hsource, hlabel, htarget⟩

namespace SyntheticChain

/-! ## Guids -/

/-- A guid as chains have them. -/
def IsMock (n : String) : Prop := n.toList.take 5 = "mock-".toList

/-- No sub-process is given a guid that chains have. -/
def StepsApart [StepIds] : Prop := ∀ i, ¬ IsMock (StepIds.nodeId i)

theorem stepsApart_numbered : StepsApart := fun i => by
  simp [IsMock, StepIds.nodeId]

theorem isMock_schemaGuid : IsMock schemaGuid := by
  unfold IsMock
  decide

theorem isMock_tableGuid (k : ℕ) : IsMock (tableGuid k) := by
  simp [IsMock, tableGuid]

theorem isMock_columnGuid (k j : ℕ) : IsMock (columnGuid k j) := by
  simp [IsMock, columnGuid]

theorem isMock_processGuid (k : ℕ) : IsMock (processGuid k) := by
  simp [IsMock, processGuid]

/-- The letter of a guid that tells what it is the guid of. -/
def letter (n : String) : Option Char := n.toList[5]?

/-- What a guid of a chain stands for. -/
def role (n : String) : Role :=
  match letter n with
  | some 'c' => .column
  | some 't' => .table
  | some 'p' => .process
  | _ => .other

@[simp]
theorem role_schemaGuid : role schemaGuid = .other := by decide

@[simp]
theorem role_tableGuid (k : ℕ) : role (tableGuid k) = .table := by
  simp [role, letter, tableGuid]

@[simp]
theorem role_columnGuid (k j : ℕ) : role (columnGuid k j) = .column := by
  simp [role, letter, columnGuid]

@[simp]
theorem role_processGuid (k : ℕ) : role (processGuid k) = .process := by
  simp [role, letter, processGuid]

/-- Guids that stand for different things are different. -/
theorem ne_of_role {m n : String} (h : role m ≠ role n) : m ≠ n := fun heq => h (heq ▸ rfl)

theorem tableGuid_injective {k l : ℕ} (h : tableGuid k = tableGuid l) : k = l :=
  Nat.repr_injective ((String.append_right_inj _).1 h)

theorem processGuid_injective {k l : ℕ} (h : processGuid k = processGuid l) : k = l :=
  Nat.repr_injective ((String.append_right_inj _).1 h)

theorem toList_columnGuid (k j : ℕ) : (columnGuid k j).toList
    = "mock-c".toList ++ (Nat.toDigits 10 k ++ '_' :: Nat.toDigits 10 j) := by
  simp [columnGuid, Nat.repr]

/-- The number of the table ends where the underscore stands. -/
theorem columnGuid_injective {k j k' j' : ℕ} (h : columnGuid k j = columnGuid k' j') :
    k = k' ∧ j = j' := by
  have hlist := congrArg String.toList h
  rw [toList_columnGuid, toList_columnGuid, List.append_cancel_left_eq] at hlist
  have hdigits := congrArg Decimal.digits hlist
  rw [Json.digits_toDigits k (by simp), Json.digits_toDigits k' (by simp)] at hdigits
  simp only [Prod.mk.injEq, List.cons.injEq, true_and] at hdigits
  exact ⟨Nat.repr_injective (congrArg String.ofList hdigits.1),
    Nat.repr_injective (congrArg String.ofList hdigits.2)⟩

/-! ## Events -/

theorem events_succ (n m : ℕ) : events ⟨n + 1, m⟩ = events ⟨n, m⟩ ++ eventsOfTable m n := by
  simp [events, List.range_succ]

theorem mem_events_iff {c : SyntheticChain} {e : Event} : e ∈ c.events ↔ e = schemaEvent
    ∨ ∃ k < c.tables, e ∈ tableEvents k ∨ (∃ j < c.columns, e ∈ columnEvents k j)
      ∨ k ≠ 0 ∧ e = processEvent c.columns k := by
  simp only [events, eventsOfTable, List.mem_cons, List.mem_flatMap, List.mem_range,
    List.mem_append, or_assoc]
  refine or_congr_right (exists_congr fun k => and_congr_right fun _ => or_congr_right
    (or_congr_right ?_))
  split_ifs with hk <;> simp [hk]

theorem length_eventsOfTable (m k : ℕ) :
    (eventsOfTable m k).length = 2 + 2 * m + if k = 0 then 0 else 1 := by
  have hcolumns : ((List.range m).flatMap (columnEvents k)).length = 2 * m := by
    simp [List.length_flatMap, columnEvents, Nat.mul_comm]
  rw [eventsOfTable, List.length_append, List.length_append, hcolumns]
  split_ifs <;> rfl

theorem length_events (n m : ℕ) :
    (events ⟨n, m⟩).length = 1 + n * (2 + 2 * m) + (n - 1) := by
  induction n with
  | zero => simp [events]
  | succ n ih =>
    rw [events_succ, List.length_append, ih, length_eventsOfTable, Nat.succ_mul n]
    split_ifs <;> omega

/-- The events of a table and its columns. -/
def layout (m k : ℕ) : List Event := tableEvents k ++ (List.range m).flatMap (columnEvents k)

theorem eventsOfTable_zero (m : ℕ) : eventsOfTable m 0 = layout m 0 := List.append_nil _

theorem eventsOfTable_succ (m k : ℕ) :
    eventsOfTable m (k + 1) = layout m (k + 1) ++ [processEvent m (k + 1)] := rfl

theorem mappings_of_mem_layout {m k : ℕ} {e : Event} (he : e ∈ layout m k) : e.mappings = [] := by
  simp only [layout, tableEvents, columnEvents, List.mem_append, List.mem_cons, List.not_mem_nil,
    or_false, List.mem_flatMap] at he
  rcases he with (rfl | rfl) | ⟨j, -, rfl | rfl⟩ <;> rfl

theorem length_mappings_events (n m : ℕ) :
    ((events ⟨n, m⟩).flatMap Event.mappings).length = (n - 1) * m := by
  induction n with
  | zero => simp [events, schemaEvent, Event.mappings]
  | succ n ih =>
    have hlayout : (layout m n).flatMap Event.mappings = [] :=
      List.flatMap_eq_nil_iff.2 fun e => mappings_of_mem_layout
    rw [events_succ, List.flatMap_append, List.length_append, ih]
    cases n with
    | zero => simp [eventsOfTable_zero, hlayout]
    | succ n => simp [eventsOfTable_succ, hlayout, processEvent, Event.mappings, Nat.succ_mul]

/-! ## Every event is let in -/

theorem grounded_columnEvents (k : ℕ) : ∀ (js : List ℕ) {known : String → Prop},
    known (tableGuid k) → Grounded known (js.flatMap (columnEvents k))
  | [], _, _ => trivial
  | j :: js, known, h => by
    refine ⟨by simp, ?_, grounded_columnEvents k js (.inl (.inl h))⟩
    rintro r ⟨⟩
    exact ⟨.inl h, .inr rfl⟩

theorem grounded_eventsOfTable (m k : ℕ) {known : String → Prop} (h : known schemaGuid) :
    Grounded known (eventsOfTable m k) := by
  have htable : Grounded known (tableEvents k) := by
    refine ⟨by simp, ?_, trivial⟩
    rintro r ⟨⟩
    exact ⟨.inl h, .inr rfl⟩
  refine (htable.append (grounded_columnEvents k _ (.inr ?_))).append ?_
  · exact ⟨_, List.mem_cons_self, rfl⟩
  · split_ifs
    · trivial
    · exact ⟨by simp [processEvent], trivial⟩

theorem grounded_events (n m : ℕ) : Grounded (fun _ => False) (events ⟨n, m⟩) := by
  induction n with
  | zero => exact ⟨by simp [schemaEvent], trivial⟩
  | succ n ih =>
    rw [events_succ]
    refine ih.append (grounded_eventsOfTable m n (.inr ?_))
    exact ⟨schemaEvent, List.mem_cons_self, rfl⟩

theorem letIn_events (name : String) (c : SyntheticChain) :
    Buffer.letIn (.empty name) c.events = c.events :=
  Buffer.letIn_of_grounded _ (Graph.identified_empty name) (fun _ h => h.elim)
    (grounded_events c.tables c.columns)

/-! ## The buffer graph of a chain -/

/-- The buffer graph that the events of a chain lead to. -/
def buffer (name : String) (c : SyntheticChain) : Graph := Buffer.recordAll (.empty name) c.events

theorem buffer_succ (name : String) (n m : ℕ) : buffer name ⟨n + 1, m⟩
    = Buffer.recordAll (buffer name ⟨n, m⟩) (eventsOfTable m n) := by
  rw [buffer, events_succ, Buffer.recordAll_append, ← buffer]

section Buffer

variable {name : String} {c : SyntheticChain} {k j : ℕ}

theorem records_buffer (name : String) (c : SyntheticChain) :
    (c.buffer name).Identified ∧ (c.buffer name).Records c.events := by
  have hrecords := Buffer.records_recordAll c.events (Graph.identified_empty name)
    (Graph.records_empty name)
  rwa [List.nil_append, letIn_events] at hrecords

theorem isMock_of_entity {e : Event} (he : e ∈ c.events) {entity : Entity}
    (hentity : e.entity? = some entity) : IsMock entity.guid := by
  rcases mem_events_iff.1 he with rfl | ⟨k, -, he | ⟨j, -, he⟩ | ⟨-, rfl⟩⟩
  · cases hentity
    exact isMock_schemaGuid
  · simp only [tableEvents, List.mem_cons, List.not_mem_nil, or_false] at he
    rcases he with rfl | rfl <;> cases hentity
    exact isMock_tableGuid k
  · simp only [columnEvents, List.mem_cons, List.not_mem_nil, or_false] at he
    rcases he with rfl | rfl <;> cases hentity
    exact isMock_columnGuid k j
  · cases hentity
    exact isMock_processGuid k

/-- A table is in the schema, or a column in its table. -/
theorem relationship_cases {r : Relationship} (hr : .newRelationship r ∈ c.events) :
    (∃ k, r.type = "AttachedSchema" ∧ r.endOne = schemaGuid ∧ r.endTwo = tableGuid k)
      ∨ ∃ k j, r.type = "NestedSchemaAttribute" ∧ r.endOne = tableGuid k
        ∧ r.endTwo = columnGuid k j := by
  rcases mem_events_iff.1 hr with h | ⟨k, -, h | ⟨j, -, h⟩ | ⟨-, h⟩⟩
  · cases h
  · simp only [tableEvents, List.mem_cons, List.not_mem_nil, or_false, reduceCtorEq, false_or,
      Event.newRelationship.injEq] at h
    subst h
    exact .inl ⟨k, rfl, rfl, rfl⟩
  · simp only [columnEvents, List.mem_cons, List.not_mem_nil, or_false, reduceCtorEq, false_or,
      Event.newRelationship.injEq] at h
    subst h
    exact .inr ⟨k, j, rfl, rfl, rfl⟩
  · cases h

/-- Entities and relationships are as the guids they name have it. -/
theorem respects_of_mem {e : Event} (he : e ∈ c.events) : e.Respects role := by
  rcases mem_events_iff.1 he with rfl | ⟨k, -, he | ⟨j, -, he⟩ | ⟨-, rfl⟩⟩
  · exact iff_of_false (by decide) (by simp [named])
  · simp only [tableEvents, List.mem_cons, List.not_mem_nil, or_false] at he
    rcases he with rfl | rfl
    · exact iff_of_true (by simp [named, TypeName.isTableLike]) (by simp [named])
    · exact ⟨fun h => by simp [TypeName.semanticAssignment] at h,
        fun h => by simp [TypeName.synonym] at h⟩
  · simp only [columnEvents, List.mem_cons, List.not_mem_nil, or_false] at he
    rcases he with rfl | rfl
    · exact iff_of_false (by simp [named, TypeName.isTableLike]) (by simp [named])
    · exact ⟨fun h => by simp [TypeName.semanticAssignment] at h,
        fun h => by simp [TypeName.synonym] at h⟩
  · exact ⟨iff_of_false (by simp [named, TypeName.isTableLike]) (by simp [named]), by simp [named]⟩

theorem isMock_of_mem_buffer {v : Vertex} (hv : v ∈ allVertices (c.buffer name)) {n : String}
    (hn : v.guid? = some n) : IsMock n := by
  obtain ⟨e, he, entity, hentity, rfl, -⟩ := (records_buffer name c).2.exists_entity hv hn
  exact isMock_of_entity he hentity

/-- Nothing is assigned to a term. -/
theorem not_attachItem {inst : Vertex} {n : String} {i : Item} :
    ¬ AttachItem (c.buffer name) inst n i := by
  have hunrelated : ∀ term, ¬ (c.buffer name).Related TypeName.semanticAssignment inst term := by
    rintro term ⟨e, he, hlabel, -⟩
    obtain ⟨hb, hrecords⟩ := records_buffer name c
    obtain ⟨u, hu, hsource⟩ := hb.exists_source he
    obtain ⟨v, hv, htarget⟩ := hb.exists_target he
    obtain ⟨r, hr, htype, -⟩ :=
      hrecords.exists_relationship hb he hu hv hsource.symm htarget.symm
    rw [hlabel] at htype
    rcases relationship_cases hr with ⟨k, h, -⟩ | ⟨k, j, h, -⟩
    · simp [h, TypeName.semanticAssignment] at htype
    · simp [h, TypeName.semanticAssignment] at htype
  rintro (⟨-, -, hrelated, -⟩ | ⟨-, -, hrelated⟩)
  · exact hunrelated _ hrelated
  · exact hunrelated _ hrelated

/-! ## Columns and their tables -/

theorem guid_of_hop {inst u : Vertex} (hinst : inst ∈ allVertices (c.buffer name))
    (hguid : inst.guid? = some (columnGuid k j)) (hu : u ∈ allVertices (c.buffer name))
    (hhop : structuralRule.Hop (c.buffer name) inst.id u.id) : u.guid? = some (tableGuid k) := by
  obtain ⟨hb, hrecords⟩ := records_buffer name c
  obtain ⟨e, he, -, hends⟩ := Graph.structuralRule_hop_iff.1 hhop
  rcases hends with ⟨hsource, htarget⟩ | ⟨htarget, hsource⟩
  · obtain ⟨r, hr, -, hone, htwo⟩ := hrecords.exists_relationship hb he hinst hu hsource htarget
    have hone : columnGuid k j = r.endOne := Option.some.inj (hguid.symm.trans hone)
    rcases relationship_cases hr with ⟨k', -, h, -⟩ | ⟨k', j', -, h, -⟩
    · exact absurd (hone.trans h) (ne_of_role (by simp))
    · exact absurd (hone.trans h) (ne_of_role (by simp))
  · obtain ⟨r, hr, -, hone, htwo⟩ := hrecords.exists_relationship hb he hu hinst hsource htarget
    have htwo : columnGuid k j = r.endTwo := Option.some.inj (hguid.symm.trans htwo)
    rcases relationship_cases hr with ⟨k', -, -, h⟩ | ⟨k', j', -, h, h'⟩
    · exact absurd (htwo.trans h) (ne_of_role (by simp))
    · rw [hone, h, (columnGuid_injective (htwo.trans h')).1]

/-- The relationship of a column leads from it to its table. -/
theorem exists_hop (name : String) (hk : k < c.tables) (hj : j < c.columns) :
    ∃ inst ∈ allVertices (c.buffer name), ∃ table ∈ allVertices (c.buffer name),
      inst.guid? = some (columnGuid k j) ∧ table.guid? = some (tableGuid k)
        ∧ structuralRule.Hop (c.buffer name) inst.id table.id := by
  have hmem : Event.newRelationship ⟨"mock-r" ++ columnGuid k j, "NestedSchemaAttribute",
      tableGuid k, columnGuid k j, ∅⟩ ∈ c.events :=
    mem_events_iff.2 (.inr ⟨k, hk, .inr (.inl ⟨j, hj, by simp [columnEvents]⟩)⟩)
  obtain ⟨table, htable, inst, hinst, hguid, hguid', e, he, hsource, hlabel, htarget⟩ :=
    (records_buffer name c).2.knows_of_mem hmem
  have hstructural : e.label ∉ TypeName.nonStructural := by
    rw [hlabel]
    change "NestedSchemaAttribute" ∉ TypeName.nonStructural
    decide
  exact ⟨inst, hinst, table, htable, hguid', hguid,
    Graph.structuralRule_hop_iff.2 ⟨e, he, hstructural, .inr ⟨htarget, hsource⟩⟩⟩

/-- A column is enclosed by its table, however far the search goes. -/
theorem enclosed_column (name : String) {depths : SearchDepths} (hdepth : 1 ≤ depths.table)
    (hk : k < c.tables) (hj : j < c.columns) :
    ∃ inst table, vertexWith? (c.buffer name) Key.guid (columnGuid k j) = some inst
      ∧ Enclosed depths (c.buffer name) inst table (tableGuid k) := by
  obtain ⟨hb, hrecords⟩ := records_buffer name c
  obtain ⟨inst, hinst, table, htable, hguid, hguid', hhop⟩ := exists_hop name hk hj
  have hat : ∃ n ≤ 1, (c.buffer name).ContainerAt inst TypeName.isTableLike n table := by
    obtain ⟨n, hn, hdist⟩ := atDistance_self.exists_next hhop
    refine ⟨n, hn, htable, ?_, ?_, hdist⟩
    · rintro rfl
      exact ne_of_role (by simp) (Option.some.inj (hguid.symm.trans hguid'))
    · exact ((hrecords.respects hb fun _ => respects_of_mem).type table htable _ hguid').2 (by simp)
  obtain ⟨n, hn, hat⟩ := hat
  obtain ⟨found, hfound, -⟩ :=
    hb.exists_nearestContainer hinst TypeName.isTableLike depths.table
  have hnearest := hb.toWellFormed.isNearest hinst hfound
  rcases found with _ | u
  · exact absurd hat (hnearest n (hn.trans hdepth) table)
  · obtain ⟨n', -, hnear, hleast⟩ := hnearest
    -- nothing is as near as one hop but what the relationship of the column leads to
    obtain rfl : n' = 1 := Nat.le_antisymm ((hleast n table hat).trans hn)
      (hnear.pos hb.toCoherent hinst)
    obtain ⟨x, hx, hhop⟩ := hnear.distance.exists_prev
    rw [hx.eq_of_zero] at hhop
    exact ⟨inst, u, hb.vertexWith?_eq_some_iff.2 ⟨hinst, hguid⟩, hfound,
      guid_of_hop hinst hguid hnear.mem hhop⟩

end Buffer

end SyntheticChain

end Lineage
