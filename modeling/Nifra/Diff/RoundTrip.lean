import Nifra.Diff.RouteSoundness

/-! # Snapshots that are the same

A snapshot against itself has no change, also when one of the two has been written as JSON and
read back.
-/

namespace Nifra.Diff

open JSON

variable {toUpperCase : JSString → JSString}

@[simp] theorem compareJsonSchema_self (direction : Direction) (schema : Value) :
    compareJsonSchema direction schema schema = none := by
  simp [compareJsonSchema, jsonEqual]

@[simp] theorem compared_none (ctx : SectionContext) (message : JSString)
    (field : Option JSString) : ctx.compared none message field = [] := rfl

theorem diffFields_self (ctx : SectionContext) (schema : Value) (part : SchemaSnapshot) :
    diffFields ctx schema schema part part = [] := by
  unfold diffFields
  cases part.fields with
  | none => simp
  | some fields =>
    simp only [compareJsonSchema_self, compared_none, List.nil_append, List.append_eq_nil_iff,
      List.flatMap_eq_nil_iff]
    constructor
    · rintro ⟨name, field⟩ hmem
      have hget := InsertionMap.get_eq_some_iff.mpr hmem
      simp [diffField, hget]
    · rintro ⟨name, field⟩ hmem
      have hget := InsertionMap.get_eq_some_iff.mpr hmem
      simp [addedField, InsertionMap.has, hget]

theorem diffSchemaSection_self (ctx : SectionContext) {part : Option SchemaSnapshot}
    (h : ∀ snapshot ∈ part, snapshot.Described) : diffSchemaSection ctx part part = [] := by
  cases part with
  | none => rfl
  | some snapshot =>
    obtain ⟨schema, hsound⟩ := h snapshot rfl
    simp [diffSchemaSection, hsound.jsonSchema, diffFields_self]

theorem diffSections_self (method path : JSString) (direction : Direction)
    {parts : List (ChangeSection × Option SchemaSnapshot)}
    (h : ∀ part ∈ parts, ∀ snapshot ∈ part.2, snapshot.Described) :
    diffSections method path direction parts parts = [] := by
  rw [diffSections, List.flatMap_eq_nil_iff]
  rintro ⟨before, after⟩ hmem
  have hsame : before = after := by
    rw [List.zip_eq_zipWith, List.zipWith_self] at hmem
    obtain ⟨part, -, hpart⟩ := List.mem_map.mp hmem
    rw [← (Prod.mk.inj hpart).1, ← (Prod.mk.inj hpart).2]
  subst hsame
  exact diffSchemaSection_self _ (h before (List.of_mem_zip hmem).1)

theorem lookup_status {errors : List (ℕ × SchemaSnapshot)} (hnodup : (errors.map Prod.fst).Nodup)
    {status : ℕ} {part : SchemaSnapshot} (h : (status, part) ∈ errors) :
    errors.lookup status = some part := by
  cases hlookup : errors.lookup status with
  | none => exact absurd (List.lookup_eq_none_iff.mp hlookup _ h) (by simp)
  | some other =>
    have heq := List.inj_on_of_nodup_map hnodup (mem_of_status hlookup) h rfl
    rw [(Prod.mk.inj heq).2]

theorem diffErrors_self (method path : JSString) {errors : Option (List (ℕ × SchemaSnapshot))}
    (hdescribed : ∀ list ∈ errors, ∀ error ∈ list, error.2.Described)
    (hstatuses : ∀ list ∈ errors, (list.map Prod.fst).Nodup) :
    diffErrors method path errors errors = [] := by
  cases errors with
  | none => rfl
  | some list =>
    simp only [diffErrors, Option.getD_some, List.append_eq_nil_iff, List.flatMap_eq_nil_iff]
    constructor
    · rintro ⟨status, part⟩ hmem
      obtain ⟨schema, hsound⟩ := hdescribed list rfl (status, part) hmem
      have hschema : part.jsonSchema = some schema := hsound.jsonSchema
      simp [diffError, lookup_status (hstatuses list rfl) hmem, hschema]
    · rintro ⟨status, part⟩ hmem
      simp [lookup_status (hstatuses list rfl) hmem]

theorem diffRoute_self {route : RouteSnapshot} (h : (route.schema.getD .empty).Sound) :
    diffRoute route route = [] := by
  have hparts := h.parts
  simp only [List.forall_mem_append] at hparts
  simp only [diffRoute, diffSections_self _ _ _ hparts.1, diffSections_self _ _ _ hparts.2,
    diffErrors_self _ _ h.errors h.statuses, List.append_nil]

theorem diffRouteSnapshots_self {routes : List RouteSnapshot} (h : Snapshot toUpperCase routes) :
    diffRouteSnapshots toUpperCase routes routes = ⟨[], false⟩ := by
  have hchanges : (diffRouteSnapshots toUpperCase routes routes).changes = [] := by
    simp only [diffRouteSnapshots, List.append_eq_nil_iff, List.flatMap_eq_nil_iff]
    constructor
    · rintro route hroute
      rw [routeByKey_of_mem h.keys hroute rfl]
      exact diffRoute_self (h.schema hroute)
    · rintro route hroute
      rw [if_pos]
      exact List.any_eq_true.mpr ⟨route, hroute, by simp⟩
  unfold diffRouteSnapshots at hchanges ⊢
  dsimp only at hchanges ⊢
  rw [hchanges]
  rfl

def partJSON (name : JSString) (part : Option SchemaSnapshot) : Fields :=
  part.toList.map fun snapshot => (name, snapshot.toJSON)

def errorsJSON (errors : List (ℕ × SchemaSnapshot)) : Value :=
  .object (errors.map fun (status, part) => (decimal status, part.toJSON))

def RouteSnapshotSchema.parts (schema : RouteSnapshotSchema) :
    List (JSString × Option SchemaSnapshot) :=
  [(js "headers", schema.headers), (js "cookies", schema.cookies), (js "body", schema.body),
    (js "query", schema.query), (js "params", schema.params), (js "response", schema.response),
    (js "sse", schema.sse)]

def RouteSnapshotSchema.toJSON (schema : RouteSnapshotSchema) : Value :=
  .object (schema.parts.flatMap (fun (name, part) => partJSON name part) ++
    schema.errors.toList.map fun errors => (js "errors", errorsJSON errors))

def RouteSnapshot.toJSON (route : RouteSnapshot) : Value :=
  .object ([(js "method", .string route.method), (js "path", .string route.path)] ++
    route.schema.toList.map fun schema => (js "schema", schema.toJSON))

/-- A committed baseline: `JSON.stringify` of a snapshot. -/
def baseline (routes : List RouteSnapshot) : JSString :=
  (Value.array (routes.map RouteSnapshot.toJSON)).stringify

def fieldOfJSON : Value → Option ReflectedSchemaField
  | .object fields =>
    match fields.lookup (js "name"), fields.lookup (js "required"), fields.lookup (js "schema") with
    | some (.string name), some (.bool required), some schema => some ⟨name, required, schema⟩
    | _, _, _ => none
  | _ => none

def SchemaSnapshot.ofJSON : Value → Option SchemaSnapshot
  | .object fields =>
    match fields.lookup (js "fields") with
    | none => some ⟨fields.lookup (js "jsonSchema"), none⟩
    | some (.array items) =>
      (items.mapM fieldOfJSON).map fun read => ⟨fields.lookup (js "jsonSchema"), some read⟩
    | _ => none
  | _ => none

def partOfJSON (fields : Fields) (name : JSString) : Option (Option SchemaSnapshot) :=
  match fields.lookup name with
  | none => some none
  | some value => (SchemaSnapshot.ofJSON value).map some

def errorOfJSON (field : JSString × Value) : Option (ℕ × SchemaSnapshot) :=
  (SchemaSnapshot.ofJSON field.2).map (natOfDigits field.1, ·)

def errorsOfJSON (fields : Fields) : Option (Option (List (ℕ × SchemaSnapshot))) :=
  match fields.lookup (js "errors") with
  | none => some none
  | some (.object errors) => (errors.mapM errorOfJSON).map some
  | _ => none

def RouteSnapshotSchema.ofJSON : Value → Option RouteSnapshotSchema
  | .object fields => do
    let headers ← partOfJSON fields (js "headers")
    let cookies ← partOfJSON fields (js "cookies")
    let body ← partOfJSON fields (js "body")
    let query ← partOfJSON fields (js "query")
    let params ← partOfJSON fields (js "params")
    let response ← partOfJSON fields (js "response")
    let sse ← partOfJSON fields (js "sse")
    let errors ← errorsOfJSON fields
    some ⟨headers, cookies, body, query, params, response, sse, errors⟩
  | _ => none

def RouteSnapshot.ofJSON : Value → Option RouteSnapshot
  | .object fields =>
    match fields.lookup (js "method"), fields.lookup (js "path") with
    | some (.string method), some (.string path) =>
      match fields.lookup (js "schema") with
      | none => some ⟨method, path, none⟩
      | some schema => (RouteSnapshotSchema.ofJSON schema).map (⟨method, path, some ·⟩)
    | _, _ => none
  | _ => none

/-- A baseline read back: `JSON.parse`, taken as the routes it is of. -/
def restore (text : JSString) : Option (List RouteSnapshot) :=
  match parse text with
  | some (.array routes) => routes.mapM RouteSnapshot.ofJSON
  | _ => none

theorem mapM_map {α β : Type*} {f : α → β} {g : β → Option α} {items : List α}
    (h : ∀ item ∈ items, g (f item) = some item) : (items.map f).mapM g = some items := by
  induction items with
  | nil => rfl
  | cons item items ih =>
    obtain ⟨hitem, hitems⟩ := List.forall_mem_cons.mp h
    rw [List.map_cons, List.mapM_cons, hitem, ih hitems]
    rfl

def fieldJSON (field : ReflectedSchemaField) : Value :=
  .object [(js "name", .string field.name), (js "required", .bool field.required),
    (js "schema", field.schema)]

theorem fieldOfJSON_fieldJSON (field : ReflectedSchemaField) :
    fieldOfJSON (fieldJSON field) = some field := rfl

theorem ofJSON_toJSON (part : SchemaSnapshot) :
    SchemaSnapshot.ofJSON part.toJSON = some part := by
  obtain ⟨jsonSchema, fields⟩ := part
  cases fields with
  | none => cases jsonSchema <;> rfl
  | some fields =>
    have hfields : (fields.map fieldJSON).mapM fieldOfJSON = some fields :=
      mapM_map fun field _ => fieldOfJSON_fieldJSON field
    have hread : SchemaSnapshot.ofJSON (SchemaSnapshot.toJSON ⟨jsonSchema, some fields⟩) =
        ((fields.map fieldJSON).mapM fieldOfJSON).map fun read => ⟨jsonSchema, some read⟩ := by
      cases jsonSchema <;> rfl
    rw [hread, hfields]
    rfl

theorem lookup_partJSON_ne {name other : JSString} (h : other ≠ name)
    (part : Option SchemaSnapshot) (rest : Fields) :
    (partJSON name part ++ rest).lookup other = rest.lookup other := by
  cases part with
  | none => rfl
  | some part =>
    simp only [partJSON, Option.toList_some, List.map_cons, List.map_nil, List.singleton_append,
      List.lookup_cons, beq_eq_false_iff_ne.mpr h]

theorem lookup_parts_ne {parts : List (JSString × Option SchemaSnapshot)} {name : JSString}
    (h : name ∉ parts.map Prod.fst) (rest : Fields) :
    (parts.flatMap (fun (name, part) => partJSON name part) ++ rest).lookup name =
      rest.lookup name := by
  induction parts with
  | nil => rfl
  | cons entry parts ih =>
    obtain ⟨key, part⟩ := entry
    obtain ⟨hkey, hparts⟩ := not_or.mp (mt List.mem_cons.mpr h)
    rw [List.flatMap_cons, List.append_assoc, lookup_partJSON_ne hkey, ih hparts]

theorem lookup_parts {parts : List (JSString × Option SchemaSnapshot)}
    (hnodup : (parts.map Prod.fst).Nodup) {name : JSString} {part : Option SchemaSnapshot}
    (h : (name, part) ∈ parts) {rest : Fields} (hrest : rest.lookup name = none) :
    (parts.flatMap (fun (name, part) => partJSON name part) ++ rest).lookup name =
      part.map SchemaSnapshot.toJSON := by
  induction parts with
  | nil => cases h
  | cons entry parts ih =>
    obtain ⟨key, first⟩ := entry
    rw [List.map_cons, List.nodup_cons] at hnodup
    rw [List.flatMap_cons, List.append_assoc]
    rcases List.mem_cons.mp h with heq | hmem
    · obtain ⟨rfl, rfl⟩ := Prod.mk.inj heq
      cases part with
      | none => exact (lookup_parts_ne hnodup.1 rest).trans hrest
      | some part => simp [partJSON]
    · have hne : name ≠ key := by
        rintro rfl
        exact hnodup.1 (List.mem_map.mpr ⟨(name, part), hmem, rfl⟩)
      rw [lookup_partJSON_ne hne, ih hnodup.2 hmem]

theorem partOfJSON_of_lookup {fields : Fields} {name : JSString} {part : Option SchemaSnapshot}
    (h : fields.lookup name = part.map SchemaSnapshot.toJSON) :
    partOfJSON fields name = some part := by
  rw [partOfJSON, h]
  cases part with
  | none => rfl
  | some part => simp [ofJSON_toJSON]

theorem errorOfJSON_decimal (status : ℕ) (part : SchemaSnapshot) :
    errorOfJSON (decimal status, part.toJSON) = some (status, part) := by
  rw [errorOfJSON, ofJSON_toJSON, natOfDigits_decimal]
  rfl

theorem errorsOfJSON_of_lookup {fields : Fields} {errors : Option (List (ℕ × SchemaSnapshot))}
    (h : fields.lookup (js "errors") = errors.map errorsJSON) :
    errorsOfJSON fields = some errors := by
  rw [errorsOfJSON, h]
  cases errors with
  | none => rfl
  | some list =>
    have hread : (list.map fun (status, part) => (decimal status, part.toJSON)).mapM errorOfJSON =
        some list := mapM_map fun error _ => errorOfJSON_decimal error.1 error.2
    simp only [Option.map_some, errorsJSON, hread]

theorem schema_ofJSON_toJSON (schema : RouteSnapshotSchema) :
    RouteSnapshotSchema.ofJSON schema.toJSON = some schema := by
  have hnodup : (schema.parts.map Prod.fst).Nodup := by
    have hnames : [js "headers", js "cookies", js "body", js "query", js "params", js "response",
      js "sse"].Nodup := by decide
    exact hnames
  have herrors : ∀ name ∈ schema.parts.map Prod.fst, (schema.errors.toList.map fun errors =>
      (js "errors", errorsJSON errors)).lookup name = none := by
    intro name hname
    have hne : name ≠ js "errors" := by
      rintro rfl
      have hnot : js "errors" ∉ [js "headers", js "cookies", js "body", js "query", js "params",
        js "response", js "sse"] := by decide
      exact hnot hname
    cases schema.errors with
    | none => rfl
    | some list =>
      simp only [Option.toList_some, List.map_cons, List.map_nil, List.lookup_cons,
        beq_eq_false_iff_ne.mpr hne, List.lookup_nil]
  have hpart : ∀ name part, (name, part) ∈ schema.parts →
      partOfJSON (schema.parts.flatMap (fun (name, part) => partJSON name part) ++
        schema.errors.toList.map fun errors => (js "errors", errorsJSON errors)) name =
          some part := fun _ _ hmem =>
    partOfJSON_of_lookup (lookup_parts hnodup hmem (herrors _ (List.mem_map_of_mem hmem)))
  have hlast : errorsOfJSON (schema.parts.flatMap (fun (name, part) => partJSON name part) ++
      schema.errors.toList.map fun errors => (js "errors", errorsJSON errors)) =
        some schema.errors := by
    refine errorsOfJSON_of_lookup ?_
    have hnot : js "errors" ∉ [js "headers", js "cookies", js "body", js "query", js "params",
      js "response", js "sse"] := by decide
    rw [lookup_parts_ne hnot]
    cases schema.errors <;> rfl
  have hheaders := hpart (js "headers") schema.headers
    (by simp [RouteSnapshotSchema.parts])
  have hcookies := hpart (js "cookies") schema.cookies
    (by simp [RouteSnapshotSchema.parts])
  have hbody := hpart (js "body") schema.body
    (by simp [RouteSnapshotSchema.parts])
  have hquery := hpart (js "query") schema.query
    (by simp [RouteSnapshotSchema.parts])
  have hparams := hpart (js "params") schema.params
    (by simp [RouteSnapshotSchema.parts])
  have hresponse := hpart (js "response") schema.response
    (by simp [RouteSnapshotSchema.parts])
  have hsse := hpart (js "sse") schema.sse
    (by simp [RouteSnapshotSchema.parts])
  simp only [RouteSnapshotSchema.toJSON, RouteSnapshotSchema.ofJSON, hheaders, hcookies, hbody,
    hquery, hparams, hresponse, hsse, hlast, Option.bind_eq_bind, Option.bind_some]

theorem route_ofJSON_toJSON (route : RouteSnapshot) :
    RouteSnapshot.ofJSON route.toJSON = some route := by
  obtain ⟨method, path, schema⟩ := route
  cases schema with
  | none => rfl
  | some schema =>
    have hread : RouteSnapshot.ofJSON (RouteSnapshot.toJSON ⟨method, path, some schema⟩) =
        (RouteSnapshotSchema.ofJSON schema.toJSON).map (⟨method, path, some ·⟩) := rfl
    rw [hread, schema_ofJSON_toJSON]
    rfl

theorem printed_entries {fields : Fields} (names : List JSString)
    (h : ∀ field ∈ fields, Printed field.2) (hnames : (fields.map Prod.fst).Sublist names)
    (hnodup : names.Nodup) : Printed (.object fields) :=
  printed_object_iff.mpr ⟨h, hnodup.sublist hnames⟩

theorem SchemaSnapshot.Described.printed {part : SchemaSnapshot} (h : part.Described) :
    Printed part.toJSON := by
  obtain ⟨schema, hsound⟩ := h
  have hschemas : ∀ fields, fieldsOf schema = some fields → ∀ field ∈ fields,
      Printed field.schema := by
    intro fields hfields field hfield
    obtain ⟨keywords, rfl⟩ := exists_object hfields
    rw [fieldsOf_object hsound.fragment] at hfields
    split at hfields
    · obtain rfl := Option.some.inj hfields
      obtain ⟨⟨name, property⟩, hmem, rfl⟩ := List.mem_map.mp hfield
      exact printed_property hsound.printed
        (lookup_of_mem (nodup_properties hsound.printed) hmem)
    · cases hfields
  rw [SchemaSnapshot.toJSON, hsound.jsonSchema, hsound.fields]
  refine printed_entries ([js "jsonSchema", js "fields"]) ?_ ?_ (by decide)
  · intro field hfield
    rcases List.mem_append.mp hfield with hfield | hfield
    · rw [List.mem_singleton.mp hfield]
      exact hsound.printed
    · cases hfields : fieldsOf schema with
      | none => simp [hfields] at hfield
      | some fields =>
        rw [hfields] at hfield
        rw [List.mem_singleton.mp hfield]
        refine printed_array_iff.mpr fun item hitem => ?_
        obtain ⟨entry, hentry, rfl⟩ := List.mem_map.mp hitem
        refine printed_entries ([js "name", js "required", js "schema"]) ?_
          (List.Sublist.refl _) (by decide)
        simp only [List.forall_mem_cons]
        exact ⟨.string _, .bool _, hschemas fields hfields entry hentry, by simp⟩
  · cases fieldsOf schema with
    | none => exact List.Sublist.cons_cons _ (List.nil_sublist _)
    | some fields => exact List.Sublist.refl _

theorem names_parts (parts : List (JSString × Option SchemaSnapshot)) :
    ((parts.flatMap fun (name, part) => partJSON name part).map Prod.fst).Sublist
      (parts.map Prod.fst) := by
  induction parts with
  | nil => exact List.Sublist.refl _
  | cons entry parts ih =>
    obtain ⟨name, part⟩ := entry
    rw [List.flatMap_cons, List.map_append, List.map_cons]
    cases part with
    | none => exact List.Sublist.cons _ ih
    | some part => exact List.Sublist.cons_cons _ ih

theorem RouteSnapshotSchema.Sound.printed {schema : RouteSnapshotSchema} (h : schema.Sound) :
    Printed schema.toJSON := by
  have hparts : ∀ entry ∈ schema.parts, ∀ part ∈ entry.2, part.Described := by
    have hall := h.parts
    simp only [RouteSnapshotSchema.requests, RouteSnapshotSchema.responses, List.cons_append,
      List.nil_append, List.forall_mem_cons] at hall
    obtain ⟨hheaders, hcookies, hbody, hquery, hparams, hresponse, hsse, -⟩ := hall
    simp only [RouteSnapshotSchema.parts, List.forall_mem_cons]
    exact ⟨hheaders, hcookies, hbody, hquery, hparams, hresponse, hsse, by simp⟩
  refine printed_entries ([js "headers", js "cookies", js "body", js "query",
    js "params", js "response", js "sse"] ++ [js "errors"]) ?_ ?_ (by decide)
  · intro field hfield
    rcases List.mem_append.mp hfield with hfield | hfield
    · obtain ⟨⟨name, part⟩, hentry, hfield⟩ := List.mem_flatMap.mp hfield
      obtain ⟨snapshot, hsnapshot, rfl⟩ := List.mem_map.mp hfield
      exact (hparts _ hentry snapshot (Option.mem_toList.mp hsnapshot)).printed
    · obtain ⟨errors, herrors, rfl⟩ := List.mem_map.mp hfield
      rw [Option.mem_toList] at herrors
      refine printed_object_iff.mpr ⟨fun field hfield => ?_, ?_⟩
      · obtain ⟨error, herror, rfl⟩ := List.mem_map.mp hfield
        exact (h.errors errors herrors error herror).printed
      · have hnames := (h.statuses errors herrors).map decimal_injective
        rwa [List.map_map] at hnames ⊢
  · rw [List.map_append]
    refine List.Sublist.append (names_parts schema.parts) ?_
    cases schema.errors with
    | none => exact List.nil_sublist _
    | some errors => exact List.Sublist.refl _

theorem printed_route {route : RouteSnapshot} (h : ∀ schema ∈ route.schema, schema.Sound) :
    Printed route.toJSON := by
  refine printed_entries ([js "method", js "path", js "schema"]) ?_ ?_ (by decide)
  · intro field hfield
    rcases List.mem_append.mp hfield with hfield | hfield
    · simp only [List.mem_cons, List.not_mem_nil, or_false] at hfield
      rcases hfield with rfl | rfl <;> exact .string _
    · obtain ⟨schema, hschema, rfl⟩ := List.mem_map.mp hfield
      exact (h schema (Option.mem_toList.mp hschema)).printed
  · cases route.schema with
    | none => exact List.Sublist.cons_cons _ (List.Sublist.cons_cons _ (List.nil_sublist _))
    | some schema => exact List.Sublist.refl _

theorem restore_baseline {routes : List RouteSnapshot} (h : Snapshot toUpperCase routes) :
    restore (baseline routes) = some routes := by
  have hprinted : Printed (.array (routes.map RouteSnapshot.toJSON)) := by
    refine printed_array_iff.mpr fun item hitem => ?_
    obtain ⟨route, hroute, rfl⟩ := List.mem_map.mp hitem
    exact printed_route (h.schemas route hroute)
  rw [restore, baseline, hprinted.parse_stringify]
  exact mapM_map fun route _ => route_ofJSON_toJSON route

/-- A difference that breaks nothing keeps every route, and keeps it serving its clients; a snapshot
has no difference from itself, nor from its baseline read back. -/
theorem diff_sound (toUpperCase : JSString → JSString) (before after : List RouteSnapshot)
    (hbefore : Snapshot toUpperCase before) (hafter : Snapshot toUpperCase after) :
    ((diffRouteSnapshots toUpperCase before after).hasBreaking = false →
      ∀ route ∈ before,
        (∃ other ∈ after, routeKey toUpperCase other = routeKey toUpperCase route) ∧
        ∀ other ∈ after, routeKey toUpperCase other = routeKey toUpperCase route →
          Serves (route.schema.getD .empty) (other.schema.getD .empty)) ∧
    diffRouteSnapshots toUpperCase before before = ⟨[], false⟩ ∧
    ∃ restored, restore (baseline before) = some restored ∧
      diffRouteSnapshots toUpperCase before restored = ⟨[], false⟩ ∧
      diffRouteSnapshots toUpperCase restored before = ⟨[], false⟩ :=
  ⟨serves_of_hasBreaking hbefore hafter, diffRouteSnapshots_self hbefore, before,
    restore_baseline hbefore, diffRouteSnapshots_self hbefore, diffRouteSnapshots_self hbefore⟩

def upperCase (s : JSString) : JSString := s.map fun c => if 97 ≤ c ∧ c ≤ 122 then c - 32 else c

def scalarPart (type : String) : SchemaSnapshot :=
  ⟨some (.object [(js "type", .string (js type))]), none⟩

theorem described_scalarPart (type : String) : (scalarPart type).Described := by
  refine ⟨.object [(js "type", .string (js type))], rfl, rfl, ?_, ?_⟩
  · refine .schema (by simp) ?_ ?_ ?_ ?_ ?_ ?_ ?_
    · rintro name hname
      rw [List.mem_singleton.mp hname]
      exact List.mem_cons_self
    · rintro declared ⟨⟩
    · rintro name schema ⟨⟩
    · rintro required ⟨⟩
    · rintro ⟨declared, ⟨⟩⟩
    · rintro items ⟨⟩
    · rintro enum ⟨⟩
  · refine printed_object_iff.mpr ⟨?_, by simp⟩
    rintro field hfield
    rw [List.mem_singleton.mp hfield]
    exact .string _

def scalarRoute (method path type : String) : RouteSnapshot :=
  ⟨js method, js path, some { RouteSnapshotSchema.empty with query := some (scalarPart type) }⟩

theorem sound_scalarRoute (method path type : String) :
    ∀ schema ∈ (scalarRoute method path type).schema, schema.Sound := by
  rintro schema hschema
  obtain rfl := Option.some.inj hschema
  refine ⟨?_, ?_, ?_⟩
  · simp only [RouteSnapshotSchema.requests, RouteSnapshotSchema.responses,
      RouteSnapshotSchema.empty, List.cons_append, List.nil_append, List.forall_mem_cons]
    refine ⟨by simp, by simp, by simp, ?_, by simp⟩
    rintro snapshot hsnapshot
    obtain rfl := Option.some.inj hsnapshot
    exact described_scalarPart type
  · rintro errors ⟨⟩
  · rintro errors ⟨⟩

theorem diff_sound_users :
    ((diffRouteSnapshots upperCase [scalarRoute "GET" "/users" "string"]
        [scalarRoute "get" "/users" "string", scalarRoute "POST" "/users" "number"]).hasBreaking =
          false →
      ∀ route ∈ [scalarRoute "GET" "/users" "string"],
        (∃ other ∈ [scalarRoute "get" "/users" "string", scalarRoute "POST" "/users" "number"],
          routeKey upperCase other = routeKey upperCase route) ∧
        ∀ other ∈ [scalarRoute "get" "/users" "string", scalarRoute "POST" "/users" "number"],
          routeKey upperCase other = routeKey upperCase route →
            Serves (route.schema.getD .empty) (other.schema.getD .empty)) ∧
    diffRouteSnapshots upperCase [scalarRoute "GET" "/users" "string"]
      [scalarRoute "GET" "/users" "string"] = ⟨[], false⟩ ∧
    ∃ restored, restore (baseline [scalarRoute "GET" "/users" "string"]) = some restored ∧
      diffRouteSnapshots upperCase [scalarRoute "GET" "/users" "string"] restored = ⟨[], false⟩ ∧
      diffRouteSnapshots upperCase restored [scalarRoute "GET" "/users" "string"] = ⟨[], false⟩ :=
  diff_sound upperCase _ _
    ⟨by decide +kernel, by simpa using sound_scalarRoute "GET" "/users" "string"⟩
    ⟨by decide +kernel, by
      simp only [List.forall_mem_cons]
      exact ⟨sound_scalarRoute "get" "/users" "string", sound_scalarRoute "POST" "/users" "number",
        by simp⟩⟩

/-- Two routes whose methods differ in case alone have one key: the change of one is not seen. -/
theorem case_variants_unseen : ∃ before after : List RouteSnapshot,
    (before.map fun route => (route.method, route.path)).Nodup ∧
    (after.map fun route => (route.method, route.path)).Nodup ∧
    (∀ route ∈ before ++ after, ∀ schema ∈ route.schema, schema.Sound) ∧
    (diffRouteSnapshots upperCase before after).hasBreaking = false ∧
    ∃ route ∈ before, ∃ other ∈ after, other.method = route.method ∧ other.path = route.path ∧
      ∃ value, acceptsPart (route.schema.getD .empty).query value ∧
        ¬acceptsPart (other.schema.getD .empty).query value := by
  refine ⟨[scalarRoute "get" "/users" "string", ⟨js "GET", js "/users", none⟩],
    [scalarRoute "get" "/users" "number", ⟨js "GET", js "/users", none⟩], by decide +kernel,
    by decide +kernel, ?_, by decide +kernel, scalarRoute "get" "/users" "string",
    List.mem_cons_self, scalarRoute "get" "/users" "number", List.mem_cons_self, rfl, rfl,
    .string (js "a"), ?_, ?_⟩
  · simp only [List.cons_append, List.nil_append, List.forall_mem_cons]
    refine ⟨sound_scalarRoute "get" "/users" "string", ?_,
      sound_scalarRoute "get" "/users" "number", ?_, by simp⟩
    all_goals rintro schema ⟨⟩
  · rintro part hpart schema hschema
    obtain rfl := Option.some.inj hpart
    obtain rfl := Option.some.inj hschema
    refine .keywords ?_ ?_ ?_ ?_ ?_ ?_
    · rintro type htype
      obtain rfl := Option.some.inj htype
      exact (by decide : hasType (js "string") (.string (js "a")) = true)
    · rintro items ⟨⟩
    · rintro required members ⟨⟩
    · rintro ⟨⟩
    · rintro members name property member ⟨⟩
    · rintro items elements element ⟨⟩
  · intro haccepts
    have hschema := haccepts (scalarPart "number") rfl _ rfl
    cases hschema with
    | keywords htype =>
      exact absurd (htype _ rfl) (by decide : ¬hasType (js "number") (.string (js "a")) = true)

end Nifra.Diff
