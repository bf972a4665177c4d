import Lineage.Event
import Lineage.Proofs.Reloading
import Lineage.Response

/-!
# Wire values come back as they were

Responses and events are written as JSON objects and read from them by name, and some members may be
left out. What may stand for a record is its written form, or that form without the optional member,
and then the record has nothing there (`Json.Form`). Every text that says one of these forms is read
back to the record it stands for (`read?_of_form`), in particular the text that is written. An event
is held as a whole before it is judged, so its nesting counts; four levels are enough for any list
of events (`Event.Form.shallow`). In place of an object a record may also be told by the values
of its fields alone (`Json.fields?_values`).
-/

namespace Lineage

namespace Json

/-! ## Optional members -/

/-- An object less the members of a name. -/
def without (name : String) : Json → Json
  | .obj ms => .obj (ms.filter fun m => m.1 != name)
  | j => j

/-- A record as it is written, or with an optional member left out. -/
inductive Form {α : Type} (write : α → Json) (optional : String) (bare : α → α) : α → Json → Prop
  | full (a : α) : Form write optional bare a (write a)
  | bare (a : α) : Form write optional bare (bare a) ((write a).without optional)

theorem Form.read {α : Type} {write : α → Json} {optional : String} {bare : α → α}
    {read : Json → Option α} (hfull : ∀ a, read (write a) = some a)
    (hbare : ∀ a, read ((write a).without optional) = some (bare a)) {a : α} {j : Json}
    (h : Form write optional bare a j) : read j = some a := by
  cases h with
  | full => exact hfull a
  | bare a => exact hbare a

theorem mapM_of_forall₂ {α β : Type} {read : β → Option α} {as : List α} {js : List β}
    (h : List.Forall₂ (fun a j => read j = some a) as js) : js.mapM read = some as := by
  induction h with
  | nil => rfl
  | cons hread _ ih =>
    rw [List.mapM_cons, hread, ih]
    rfl

/-! ## Values that can be held as a whole -/

/-- A value without numbers, in which so many arrays and objects lie inside each other. -/
structure Shallow (levels : Nat) (j : Json) : Prop where
  depth_le : j.depth ≤ levels
  isReadable : j.isReadable = true

section Levels

variable {levels : Nat}

theorem shallow_str (levels : Nat) (s : String) : Shallow levels (.str s) where
  depth_le := Nat.zero_le _
  isReadable := rfl

theorem shallow_arr {js : List Json} (h : ∀ j ∈ js, Shallow levels j) :
    Shallow (levels + 1) (.arr js) := by
  have hitems : depthItems js ≤ levels ∧ isReadableItems js = true := by
    induction js with
    | nil => exact ⟨Nat.zero_le _, rfl⟩
    | cons j js ih =>
      obtain ⟨hj, hjs⟩ := List.forall_mem_cons.1 h
      obtain ⟨hdepth, hread⟩ := ih hjs
      exact ⟨Nat.max_le.2 ⟨hj.depth_le, hdepth⟩, Bool.and_eq_true_iff.2 ⟨hj.isReadable, hread⟩⟩
  exact ⟨Nat.succ_le_succ hitems.1, hitems.2⟩

theorem shallow_obj {ms : List (String × Json)} (h : ∀ m ∈ ms, Shallow levels m.2) :
    Shallow (levels + 1) (.obj ms) := by
  have hmembers : depthMembers ms ≤ levels ∧ isReadableMembers ms = true := by
    induction ms with
    | nil => exact ⟨Nat.zero_le _, rfl⟩
    | cons m ms ih =>
      obtain ⟨hm, hms⟩ := List.forall_mem_cons.1 h
      obtain ⟨hdepth, hread⟩ := ih hms
      exact ⟨Nat.max_le.2 ⟨hm.depth_le, hdepth⟩, Bool.and_eq_true_iff.2 ⟨hm.isReadable, hread⟩⟩
  exact ⟨Nat.succ_le_succ hmembers.1, hmembers.2⟩

theorem shallow_ofProperties (levels : Nat) (ps : Properties) :
    Shallow (levels + 1) (ofProperties ps) := by
  refine shallow_obj fun m hm => ?_
  obtain ⟨p, -, rfl⟩ := List.mem_map.1 hm
  exact shallow_str levels p.2

end Levels

end Json

/-- A form goes no deeper than the written record. -/
theorem Json.Form.shallow {α : Type} {write : α → Json} {optional : String} {bare : α → α}
    {levels : Nat} (hwrite : ∀ a, ∃ ms, write a = .obj ms ∧ ∀ m ∈ ms, Json.Shallow levels m.2)
    {a : α} {j : Json} (h : Json.Form write optional bare a j) : Json.Shallow (levels + 1) j := by
  cases h with
  | full =>
    obtain ⟨ms, hms, hshallow⟩ := hwrite a
    exact hms ▸ Json.shallow_obj hshallow
  | bare a =>
    obtain ⟨ms, hms, hshallow⟩ := hwrite a
    rw [hms]
    exact Json.shallow_obj fun m hm => hshallow m (List.mem_filter.1 hm).1

/-! ## Responses -/

namespace Response

/-- What may stand for a vertex of a response. -/
abbrev VertexForm : ResponseVertex → Json → Prop :=
  Json.Form vertexToJson "attributes" fun v => { v with attributes := ∅ }

theorem vertexOfJson?_vertexToJson (v : ResponseVertex) :
    vertexOfJson? (vertexToJson v) = some v := by
  obtain ⟨id, type, guid, displayName, attributes⟩ := v
  have hps := Json.asProperties?_ofProperties attributes
  rcases guid with _ | guid <;> rcases displayName with _ | displayName <;>
    simp [vertexOfJson?, vertexToJson, optionalMember, Json.fields?, Json.string?,
      Json.stringOrNull?, Json.properties?, Json.required?, Json.member?, Json.asString?, hps]

theorem vertexOfJson?_without (v : ResponseVertex) :
    vertexOfJson? ((vertexToJson v).without "attributes") = some { v with attributes := ∅ } := by
  obtain ⟨id, type, guid, displayName, attributes⟩ := v
  rcases guid with _ | guid <;> rcases displayName with _ | displayName <;>
    simp [vertexOfJson?, vertexToJson, optionalMember, Json.without, Json.fields?, Json.string?,
      Json.stringOrNull?, Json.properties?, Json.required?, Json.member?, Json.asString?]

theorem edgeOfJson?_edgeToJson (e : ResponseEdge) : edgeOfJson? (edgeToJson e) = some e := by
  simp [edgeOfJson?, edgeToJson, Json.fields?, Json.string?, Json.required?, Json.member?,
    Json.asString?]

theorem ofJson?_of_form {vs : List ResponseVertex} {js : List Json}
    (h : List.Forall₂ VertexForm vs js) (es : List ResponseEdge) :
    ofJson? (.obj [("vertices", .arr js), ("edges", .arr (es.map edgeToJson))])
      = some ⟨vs, es⟩ := by
  have hvs : js.mapM vertexOfJson? = some vs := Json.mapM_of_forall₂
    (h.imp fun _ _ => Json.Form.read vertexOfJson?_vertexToJson vertexOfJson?_without)
  have hes : (es.map edgeToJson).mapM edgeOfJson? = some es :=
    Json.mapM_of_forall fun e _ => edgeOfJson?_edgeToJson e
  simp [ofJson?, Json.fields?, Json.list?, Json.required?, Json.member?, Json.asArray?, hvs, hes]

end Response

/-! ## Events -/

namespace Event

/-- What may stand for an entity. -/
abbrev EntityForm : Entity → Json → Prop :=
  Json.Form entityToJson "properties" fun e => { e with properties := ∅ }

/-- What may stand for a relationship. -/
abbrev RelationshipForm : Relationship → Json → Prop :=
  Json.Form relationshipToJson "properties" fun r => { r with properties := ∅ }

/-- What may stand for an event: its mappings may be left out too. -/
inductive Form : Event → Json → Prop
  | newEntity {e : Entity} {j : Json} (h : EntityForm e j) :
    Form (.newEntity e) (.obj [("eventType", .str "NewEntity"), ("entity", j)])
  | updatedEntity {e : Entity} {j : Json} (h : EntityForm e j) :
    Form (.updatedEntity e) (.obj [("eventType", .str "UpdatedEntity"), ("entity", j)])
  | newRelationship {r : Relationship} {j : Json} (h : RelationshipForm r j) :
    Form (.newRelationship r)
      (.obj [("eventType", .str "NewRelationship"), ("relationship", j)])
  | processContext {p : Entity} {j : Json} (h : EntityForm p j) (ms : List ColumnMapping) :
    Form (.processContext p ms) (.obj [("eventType", .str "ProcessContext"), ("process", j),
      ("mappings", .arr (ms.map mappingToJson))])
  | withoutMappings {p : Entity} {j : Json} (h : EntityForm p j) :
    Form (.processContext p []) (.obj [("eventType", .str "ProcessContext"), ("process", j)])

/-- An event as it is written. -/
theorem form_toJson (e : Event) : Form e e.toJson := by
  cases e with
  | newEntity e => exact .newEntity (.full e)
  | updatedEntity e => exact .updatedEntity (.full e)
  | newRelationship r => exact .newRelationship (.full r)
  | processContext p ms => exact .processContext (.full p) ms

theorem entityOfJson?_of_form {e : Entity} {j : Json} (h : EntityForm e j) :
    entityOfJson? j = some e := by
  refine h.read (fun e => ?_) fun e => ?_
  · have hps := Json.asProperties?_ofProperties e.properties
    simp [entityOfJson?, entityToJson, Json.fields?, Json.string?, Json.properties?,
      Json.required?, Json.member?, Json.asString?, hps]
  · simp [entityOfJson?, entityToJson, Json.without, Json.fields?, Json.string?,
      Json.properties?, Json.required?, Json.member?, Json.asString?]

theorem relationshipOfJson?_of_form {r : Relationship} {j : Json} (h : RelationshipForm r j) :
    relationshipOfJson? j = some r := by
  refine h.read (fun r => ?_) fun r => ?_
  · have hps := Json.asProperties?_ofProperties r.properties
    simp [relationshipOfJson?, relationshipToJson, Json.fields?, Json.string?, Json.properties?,
      Json.required?, Json.member?, Json.asString?, hps]
  · simp [relationshipOfJson?, relationshipToJson, Json.without, Json.fields?, Json.string?,
      Json.properties?, Json.required?, Json.member?, Json.asString?]

theorem mappingOfJson?_mappingToJson (m : ColumnMapping) :
    mappingOfJson? (mappingToJson m) = some m := by
  simp [mappingOfJson?, mappingToJson, Json.fields?, Json.string?, Json.required?, Json.member?,
    Json.asString?]

/-! ## Events as a whole -/

theorem shallow_entity {e : Entity} {j : Json} (h : EntityForm e j) : Json.Shallow 2 j := by
  refine h.shallow fun e => ⟨_, rfl, ?_⟩
  simp only [List.forall_mem_cons, List.not_mem_nil, false_imp_iff, implies_true, and_true]
  exact ⟨Json.shallow_str 1 _, Json.shallow_str 1 _, Json.shallow_ofProperties 0 _⟩

theorem shallow_relationship {r : Relationship} {j : Json} (h : RelationshipForm r j) :
    Json.Shallow 2 j := by
  refine h.shallow fun r => ⟨_, rfl, ?_⟩
  simp only [List.forall_mem_cons, List.not_mem_nil, false_imp_iff, implies_true, and_true]
  exact ⟨Json.shallow_str 1 _, Json.shallow_str 1 _, Json.shallow_str 1 _, Json.shallow_str 1 _,
    Json.shallow_ofProperties 0 _⟩

theorem shallow_mappings (ms : List ColumnMapping) :
    Json.Shallow 2 (.arr (ms.map mappingToJson)) := by
  refine Json.shallow_arr fun j hj => ?_
  obtain ⟨m, -, rfl⟩ := List.mem_map.1 hj
  refine Json.shallow_obj ?_
  simp only [List.forall_mem_cons, List.not_mem_nil, false_imp_iff, implies_true, and_true]
  exact ⟨Json.shallow_str 0 _, Json.shallow_str 0 _⟩

theorem Form.shallow {e : Event} {j : Json} (h : Form e j) : Json.Shallow 3 j := by
  cases h
  all_goals
    refine Json.shallow_obj ?_
    simp only [List.forall_mem_cons, List.not_mem_nil, false_imp_iff, implies_true, and_true]
  case newEntity h => exact ⟨Json.shallow_str 2 _, shallow_entity h⟩
  case updatedEntity h => exact ⟨Json.shallow_str 2 _, shallow_entity h⟩
  case newRelationship h => exact ⟨Json.shallow_str 2 _, shallow_relationship h⟩
  case processContext h ms =>
    exact ⟨Json.shallow_str 2 _, shallow_entity h, shallow_mappings ms⟩
  case withoutMappings h => exact ⟨Json.shallow_str 2 _, shallow_entity h⟩

theorem withinBounds_of_shallow {levels : Nat} {j : Json} (h : Json.Shallow levels j)
    (hlevels : levels ≤ nestingLimit) : withinBounds j = true :=
  Bool.and_eq_true_iff.2 ⟨decide_eq_true (Nat.le_trans h.depth_le hlevels), h.isReadable⟩

theorem ofJson?_of_form {e : Event} {j : Json} (h : Form e j) : ofJson? j = some e := by
  unfold ofJson?
  rw [if_pos (withinBounds_of_shallow h.shallow (by decide))]
  cases h with
  | newEntity h =>
    simp [kindAndContent?, ofContent?, Json.fields?, Json.record?, Json.string?, Json.required?,
      Json.member?, Json.asString?, entityOfJson?_of_form h]
  | updatedEntity h =>
    simp [kindAndContent?, ofContent?, Json.fields?, Json.record?, Json.string?, Json.required?,
      Json.member?, Json.asString?, entityOfJson?_of_form h]
  | newRelationship h =>
    simp [kindAndContent?, ofContent?, Json.fields?, Json.record?, Json.string?, Json.required?,
      Json.member?, Json.asString?, relationshipOfJson?_of_form h]
  | processContext h ms =>
    have hms : (ms.map mappingToJson).mapM mappingOfJson? = some ms :=
      Json.mapM_of_forall fun m _ => mappingOfJson?_mappingToJson m
    simp [kindAndContent?, ofContent?, Json.fields?, Json.record?, Json.string?, Json.required?,
      Json.member?, Json.asString?, Json.listOrNil?, Json.asArray?, entityOfJson?_of_form h, hms]
  | withoutMappings h =>
    simp [kindAndContent?, ofContent?, Json.fields?, Json.record?, Json.string?, Json.required?,
      Json.member?, Json.asString?, Json.listOrNil?, entityOfJson?_of_form h]

theorem listOfJson?_of_forms {es : List Event} {js : List Json} (h : List.Forall₂ Form es js) :
    listOfJson? (.arr js) = some es := by
  have hitems : ∀ j ∈ js, Json.Shallow 3 j :=
    ((List.forall₂_and_left js es).1 (h.flip.imp fun _ _ he => ⟨he.shallow, he⟩)).1
  unfold listOfJson?
  rw [if_pos (withinBounds_of_shallow (Json.shallow_arr hitems) (by decide))]
  exact Json.mapM_of_forall₂ (h.imp fun _ _ => ofJson?_of_form)

end Event

/-- A response and a list of events come back from every text that says them, also where a vertex
comes without attributes, an entity or a relationship without properties or a process context
without mappings, which are then empty. What is written is such a text. -/
theorem read?_of_form :
    (∀ r : Response, Response.read? r.write = some r)
    ∧ (∀ es : List Event, Event.readList? (Json.arr (es.map Event.toJson)).pretty = some es)
    ∧ (∀ (vs : List ResponseVertex) (es : List ResponseEdge) (js : List Json) (text : String),
      List.Forall₂ Response.VertexForm vs js →
      Json.parse text = some (.obj [("vertices", .arr js),
        ("edges", .arr (es.map Response.edgeToJson))]) → Response.read? text = some ⟨vs, es⟩)
    ∧ ∀ (es : List Event) (js : List Json) (text : String), List.Forall₂ Event.Form es js →
      Json.parse text = some (.arr js) → Event.readList? text = some es := by
  have hresponse (vs : List ResponseVertex) (es : List ResponseEdge) (js : List Json)
      (text : String) (hform : List.Forall₂ Response.VertexForm vs js)
      (htext : Json.parse text = some (.obj [("vertices", .arr js),
        ("edges", .arr (es.map Response.edgeToJson))])) :
      Response.read? text = some ⟨vs, es⟩ := by
    rw [Response.read?, htext]
    exact Response.ofJson?_of_form hform es
  have hevents (es : List Event) (js : List Json) (text : String)
      (hform : List.Forall₂ Event.Form es js) (htext : Json.parse text = some (.arr js)) :
      Event.readList? text = some es := by
    rw [Event.readList?, htext]
    exact Event.listOfJson?_of_forms hform
  refine ⟨fun r => ?_, fun es => ?_, hresponse, hevents⟩
  · refine hresponse r.vertices r.edges _ _ ?_ (Json.parse_pretty _)
    exact List.forall₂_map_right_iff.2 (List.forall₂_same.2 fun v _ => .full v)
  · refine hevents es _ _ ?_ (Json.parse_pretty _)
    exact List.forall₂_map_right_iff.2 (List.forall₂_same.2 fun e _ => Event.form_toJson e)

/-- A process context as short as it may be. -/
def sampleContext : Json := .obj [("eventType", .str "ProcessContext"),
  ("process", .obj [("guid", .str "p"), ("typeName", .str "Process")])]

theorem read?_of_form_sampleContext :
    let es : List Event := [.processContext ⟨"p", "Process", ∅⟩ []]
    List.Forall₂ Event.Form es [sampleContext]
      ∧ Event.readList? (Json.arr [sampleContext]).pretty = some es := by
  intro es
  have hentity : Event.EntityForm ⟨"p", "Process", ∅⟩
      ((Event.entityToJson ⟨"p", "Process", ∅⟩).without "properties") :=
    .bare (⟨"p", "Process", ∅⟩ : Entity)
  have hform : List.Forall₂ Event.Form es [sampleContext] := .cons (.withoutMappings hentity) .nil
  exact ⟨hform, read?_of_form.2.2.2 es _ _ hform (Json.parse_pretty _)⟩

/-! ## Values without names -/

namespace Json

/-- The values of an object's members, in their order. -/
def values : Json → Json
  | .obj ms => .arr (ms.map Prod.snd)
  | j => j

/-- An object that has its members in the order of the fields is read from its values alone. -/
theorem fields?_values {needed defaulted : List String} {ms : List (String × Json)}
    (hneeded : needed.length ≤ ms.length) (hnames : ms.map Prod.fst <+: needed ++ defaulted) :
    (Json.obj ms).values.fields? needed defaulted = some ms := by
  obtain ⟨absent, hfields⟩ := hnames
  have hlength := congrArg List.length hfields
  rw [List.length_append, List.length_append, List.length_map] at hlength
  have hzip : (needed ++ defaulted).zip (ms.map Prod.snd) = ms := by
    calc (needed ++ defaulted).zip (ms.map Prod.snd)
        = (ms.map Prod.fst ++ absent).zip (ms.map Prod.snd ++ []) := by
          rw [hfields, List.append_nil]
      _ = ms.unzip.1.zip ms.unzip.2 := by
          rw [List.zip_append (by simp), List.zip_nil_right, List.append_nil, List.unzip_fst,
            List.unzip_snd]
      _ = ms := List.zip_unzip ms
  have hbounds : needed.length ≤ (ms.map Prod.snd).length
      ∧ (ms.map Prod.snd).length ≤ needed.length + defaulted.length := by
    rw [List.length_map]
    omega
  simp only [values, fields?, if_pos hbounds, hzip]

theorem depthItems_values : ∀ ms : List (String × Json),
    depthItems (ms.map Prod.snd) = depthMembers ms
  | [] => rfl
  | (_, j) :: ms => congrArg (max j.depth) (depthItems_values ms)

theorem isReadableItems_values : ∀ ms : List (String × Json),
    isReadableItems (ms.map Prod.snd) = isReadableMembers ms
  | [] => rfl
  | (_, j) :: ms => congrArg (j.isReadable && ·) (isReadableItems_values ms)

theorem Shallow.values {levels : Nat} {j : Json} (h : Shallow levels j) :
    Shallow levels j.values := by
  cases j with
  | obj ms =>
    refine ⟨?_, (isReadableItems_values ms).trans h.isReadable⟩
    exact Nat.le_trans (Nat.succ_le_succ (Nat.le_of_eq (depthItems_values ms))) h.depth_le
  | _ => exact h

end Json

theorem Document.ofJson?_values {d : Document} (h : d.Fits) (hversion : d.version < versionLimit) :
    ofJson? d.toJson.values = some d := by
  have hfields : d.toJson.values.fields? ["version", "graph", "vertices", "edges"] [] = some _ :=
    Json.fields?_values (Nat.le_refl 4) (List.prefix_refl _)
  rw [← ofJson?_toJson h hversion, ofJson?, hfields]
  rfl

theorem Response.ofJson?_values (r : Response) : ofJson? r.toJson.values = some r := by
  have hfields : r.toJson.values.fields? ["vertices", "edges"] [] = some _ :=
    Json.fields?_values (Nat.le_refl 2) (List.prefix_refl _)
  have hobject : ofJson? r.toJson = some r := ofJson?_of_form
    (List.forall₂_map_right_iff.2 (List.forall₂_same.2 fun v _ => .full v)) r.edges
  rw [← hobject, ofJson?, hfields]
  rfl

theorem Event.ofJson?_values (e : Event) : ofJson? e.toJson.values = some e := by
  have hbounds := withinBounds_of_shallow (form_toJson e).shallow.values (by decide)
  rw [← ofJson?_of_form (form_toJson e), ofJson?, ofJson?, if_pos hbounds,
    if_pos (withinBounds_of_shallow (form_toJson e).shallow (by decide))]
  cases e <;> rfl

end Lineage
