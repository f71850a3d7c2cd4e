import Nifra.Diff.Soundness

/-! # Routes that still serve their clients

From schemas to parts, from parts to routes, from routes to whole snapshots.
-/

namespace Nifra.Diff

open JSON

variable {toUpperCase : JSString → JSString}

def SchemaSnapshot.Described (part : SchemaSnapshot) : Prop := ∃ schema, part.Sound schema

theorem acceptsPart_some {part : SchemaSnapshot} {schema : Value} (h : part.Sound schema)
    {value : Value} : acceptsPart (some part) value ↔ Accepts schema value := by
  simp [acceptsPart, h.jsonSchema]

theorem cut_of_accepts {part : SchemaSnapshot} {schema value : Value} (h : part.Sound schema)
    (haccepts : Accepts schema value) : cut (some part) value = value := by
  unfold cut
  split
  · next fields members hfields =>
    rw [Option.bind_some, h.fields] at hfields
    cases haccepts with
    | all => cases hfields
    | @keywords schema _ _ _ _ hclosed _ _ =>
      obtain ⟨hadditional, -⟩ := closed_of_fields h.fragment hfields
      congr 1
      refine List.filter_eq_self.mpr fun member hmember => ?_
      exact (any_fieldsOf h.fragment hfields member.1).mpr
        (hclosed hadditional members rfl member.1 (List.mem_map_of_mem hmember))
  · rfl

theorem exists_object {schema : Value} {fields : List ReflectedSchemaField}
    (h : fieldsOf schema = some fields) : ∃ keywords, schema = .object keywords := by
  cases schema with
  | object keywords => exact ⟨keywords, rfl⟩
  | _ => cases h

theorem acceptsPart_request {ctx : SectionContext} (hdirection : ctx.direction = .request)
    {before after : Option SchemaSnapshot} (hbefore : ∀ part ∈ before, part.Described)
    (hafter : ∀ part ∈ after, part.Described) (h : Harmless (diffSchemaSection ctx before after))
    {value : Value} (haccepts : acceptsPart before value) : acceptsPart after value := by
  cases after with
  | none => rintro part ⟨⟩
  | some after =>
    obtain ⟨schema', hsound'⟩ := hafter after rfl
    cases before with
    | none =>
      simp only [diffSchemaSection, hdirection] at h
      exact (harmless_singleton.mp h rfl).elim
    | some before =>
      obtain ⟨schema, hsound⟩ := hbefore before rfl
      rw [acceptsPart_some hsound] at haccepts
      rw [acceptsPart_some hsound']
      simp only [diffSchemaSection, hsound.jsonSchema, hsound'.jsonSchema] at h
      cases hfields : fieldsOf schema with
      | some fields =>
        cases hfields' : fieldsOf schema' with
        | some fields' =>
          obtain ⟨keywords, rfl⟩ := exists_object hfields
          obtain ⟨keywords', rfl⟩ := exists_object hfields'
          have hcompatible := compatible_of_harmless hsound.fragment hsound'.fragment
            hsound.printed hsound'.printed (hsound.fields.trans hfields)
            (hsound'.fields.trans hfields') hfields hfields' h
          rw [hdirection] at hcompatible
          exact hcompatible.request hsound.fragment hsound'.fragment hsound.printed
            hsound'.printed hfields hfields' haccepts
        | none =>
          simp only [diffFields, hsound.fields, hsound'.fields, hfields, hfields', hdirection] at h
          exact accepts_of_compareJsonSchema hsound.printed hsound'.printed (harmless_compared h)
            value haccepts
      | none =>
        simp only [diffFields, hsound.fields, hsound'.fields, hfields, hdirection] at h
        exact accepts_of_compareJsonSchema hsound.printed hsound'.printed (harmless_compared h)
          value haccepts

theorem acceptsPart_compared {ctx : SectionContext} {before after : SchemaSnapshot}
    {schema schema' value : Value} {message : JSString} {field : Option JSString}
    (hsound : before.Sound schema) (hsound' : after.Sound schema')
    (h : Harmless (ctx.compared (compareJsonSchema .response schema schema') message field))
    (haccepts : Accepts schema' value) : Accepts schema (cut (some before) value) := by
  have hmono := accepts_of_compareJsonSchema hsound.printed hsound'.printed
    (harmless_compared h) value
  rw [cut_of_accepts hsound (hmono haccepts)]
  exact hmono haccepts

theorem acceptsPart_response {ctx : SectionContext} (hdirection : ctx.direction = .response)
    {before after : Option SchemaSnapshot} (hbefore : ∀ part ∈ before, part.Described)
    (hafter : ∀ part ∈ after, part.Described) (h : Harmless (diffSchemaSection ctx before after))
    {value : Value} (haccepts : acceptsPart after value) :
    acceptsPart before (cut before value) := by
  cases before with
  | none => rintro part ⟨⟩
  | some before =>
    obtain ⟨schema, hsound⟩ := hbefore before rfl
    cases after with
    | none =>
      simp only [diffSchemaSection, hdirection] at h
      exact (harmless_singleton.mp h rfl).elim
    | some after =>
      obtain ⟨schema', hsound'⟩ := hafter after rfl
      rw [acceptsPart_some hsound'] at haccepts
      rw [acceptsPart_some hsound]
      simp only [diffSchemaSection, hsound.jsonSchema, hsound'.jsonSchema] at h
      cases hfields : fieldsOf schema with
      | some fields =>
        cases hfields' : fieldsOf schema' with
        | some fields' =>
          obtain ⟨keywords, rfl⟩ := exists_object hfields
          obtain ⟨keywords', rfl⟩ := exists_object hfields'
          have hcompatible := compatible_of_harmless hsound.fragment hsound'.fragment
            hsound.printed hsound'.printed (hsound.fields.trans hfields)
            (hsound'.fields.trans hfields') hfields hfields' h
          rw [hdirection] at hcompatible
          exact hcompatible.response (hsound.fields.trans hfields) hsound.fragment
            hsound'.fragment hsound.printed hsound'.printed hfields hfields' haccepts
        | none =>
          simp only [diffFields, hsound.fields, hsound'.fields, hfields, hfields', hdirection] at h
          exact acceptsPart_compared hsound hsound' h haccepts
      | none =>
        simp only [diffFields, hsound.fields, hsound'.fields, hfields, hdirection] at h
        exact acceptsPart_compared hsound hsound' h haccepts

structure RouteSnapshotSchema.Sound (schema : RouteSnapshotSchema) : Prop where
  parts : ∀ part ∈ schema.requests ++ schema.responses, ∀ snapshot ∈ part.2, snapshot.Described
  errors : ∀ errors ∈ schema.errors, ∀ error ∈ errors, error.2.Described
  statuses : ∀ errors ∈ schema.errors, (errors.map Prod.fst).Nodup

/-- Every request that clients of the first schema send is accepted, and every response of the
second one is one they know. -/
structure Serves (before after : RouteSnapshotSchema) : Prop where
  headers : ∀ value, acceptsPart before.headers value → acceptsPart after.headers value
  cookies : ∀ value, acceptsPart before.cookies value → acceptsPart after.cookies value
  body : ∀ value, acceptsPart before.body value → acceptsPart after.body value
  query : ∀ value, acceptsPart before.query value → acceptsPart after.query value
  params : ∀ value, acceptsPart before.params value → acceptsPart after.params value
  response : ∀ value, acceptsPart after.response value →
    acceptsPart before.response (cut before.response value)
  sse : ∀ value, acceptsPart after.sse value → acceptsPart before.sse (cut before.sse value)
  errors : ∀ status part, (before.errors.getD []).lookup status = some part →
    ∃ other, (after.errors.getD []).lookup status = some other ∧
      ∀ value, acceptsPart (some other) value → acceptsPart (some part) (cut (some part) value)

theorem mem_of_status {errors : List (ℕ × SchemaSnapshot)} {status : ℕ} {part : SchemaSnapshot}
    (h : errors.lookup status = some part) : (status, part) ∈ errors := by
  obtain ⟨before, after, rfl, -⟩ := List.lookup_eq_some_iff.mp h
  simp

theorem serves_error {method path : JSString} {before after : Option (List (ℕ × SchemaSnapshot))}
    (hbefore : ∀ errors ∈ before, ∀ error ∈ errors, error.2.Described)
    (hafter : ∀ errors ∈ after, ∀ error ∈ errors, error.2.Described)
    (h : Harmless (diffErrors method path before after)) {status : ℕ} {part : SchemaSnapshot}
    (hlookup : (before.getD []).lookup status = some part) :
    ∃ other, (after.getD []).lookup status = some other ∧
      ∀ value, acceptsPart (some other) value → acceptsPart (some part) (cut (some part) value) := by
  have hdescribed : ∀ {errors : Option (List (ℕ × SchemaSnapshot))} {part},
      (∀ list ∈ errors, ∀ error ∈ list, error.2.Described) →
        (errors.getD []).lookup status = some part → part.Described := by
    intro errors part hall hpart
    cases errors with
    | none => cases hpart
    | some list => exact hall list rfl _ (mem_of_status hpart)
  obtain ⟨schema, hsound⟩ := hdescribed hbefore hlookup
  simp only [diffErrors, harmless_append, harmless_flatMap] at h
  have hstatus := h.1 (status, part) (mem_of_status hlookup)
  cases hother : (after.getD []).lookup status with
  | none =>
    simp only [diffError, hother] at hstatus
    exact (harmless_singleton.mp hstatus rfl).elim
  | some other =>
    obtain ⟨schema', hsound'⟩ := hdescribed hafter hother
    simp only [diffError, hother, hsound.jsonSchema, hsound'.jsonSchema] at hstatus
    refine ⟨other, rfl, fun value haccepts => ?_⟩
    rw [acceptsPart_some hsound'] at haccepts
    rw [acceptsPart_some hsound]
    exact acceptsPart_compared hsound hsound' hstatus haccepts

theorem serves_of_harmless {route route' : RouteSnapshot}
    (hbefore : (route.schema.getD .empty).Sound) (hafter : (route'.schema.getD .empty).Sound)
    (h : Harmless (diffRoute route route')) :
    Serves (route.schema.getD .empty) (route'.schema.getD .empty) := by
  simp only [diffRoute, harmless_append] at h
  obtain ⟨⟨hrequests, hresponses⟩, herrors⟩ := h
  generalize route.schema.getD .empty = before at *
  generalize route'.schema.getD .empty = after at *
  simp only [diffSections, RouteSnapshotSchema.requests, RouteSnapshotSchema.responses,
    List.zip_cons_cons, List.zip_nil_right, harmless_flatMap,
    List.forall_mem_cons] at hrequests hresponses
  obtain ⟨hheaders, hcookies, hbody, hquery, hparams, -⟩ := hrequests
  obtain ⟨hresponse, hsse, -⟩ := hresponses
  have hparts := hbefore.parts
  have hparts' := hafter.parts
  simp only [RouteSnapshotSchema.requests, RouteSnapshotSchema.responses, List.cons_append,
    List.nil_append, List.forall_mem_cons] at hparts hparts'
  obtain ⟨dheaders, dcookies, dbody, dquery, dparams, dresponse, dsse, -⟩ := hparts
  obtain ⟨dheaders', dcookies', dbody', dquery', dparams', dresponse', dsse', -⟩ := hparts'
  exact {
    headers := fun _ => acceptsPart_request rfl dheaders dheaders' hheaders
    cookies := fun _ => acceptsPart_request rfl dcookies dcookies' hcookies
    body := fun _ => acceptsPart_request rfl dbody dbody' hbody
    query := fun _ => acceptsPart_request rfl dquery dquery' hquery
    params := fun _ => acceptsPart_request rfl dparams dparams' hparams
    response := fun _ => acceptsPart_response rfl dresponse dresponse' hresponse
    sse := fun _ => acceptsPart_response rfl dsse dsse' hsse
    errors := fun _ _ => serves_error hbefore.errors hafter.errors herrors
  }

/-- A snapshot of routes: one route a key, each with described parts. -/
structure Snapshot (toUpperCase : JSString → JSString) (routes : List RouteSnapshot) : Prop where
  keys : (routes.map (routeKey toUpperCase)).Nodup
  schemas : ∀ route ∈ routes, ∀ schema ∈ route.schema, schema.Sound

theorem RouteSnapshotSchema.sound_empty : RouteSnapshotSchema.empty.Sound := by
  refine ⟨?_, ?_, ?_⟩
  · simp [RouteSnapshotSchema.empty, RouteSnapshotSchema.requests, RouteSnapshotSchema.responses]
  · rintro errors ⟨⟩
  · rintro errors ⟨⟩

theorem Snapshot.schema {routes : List RouteSnapshot} (h : Snapshot toUpperCase routes)
    {route : RouteSnapshot} (hroute : route ∈ routes) : (route.schema.getD .empty).Sound := by
  cases hschema : route.schema with
  | none => exact RouteSnapshotSchema.sound_empty
  | some schema => exact h.schemas route hroute schema hschema

theorem routeByKey_of_mem {routes : List RouteSnapshot}
    (h : (routes.map (routeKey toUpperCase)).Nodup) {route : RouteSnapshot} (hroute : route ∈ routes)
    {key : JSString} (hkey : routeKey toUpperCase route = key) :
    routeByKey toUpperCase routes key = some route := by
  unfold routeByKey
  cases hfind : routes.reverse.find? fun other => routeKey toUpperCase other = key with
  | none =>
    have hnone := List.find?_eq_none.mp hfind route (List.mem_reverse.mpr hroute)
    simp [hkey] at hnone
  | some found =>
    have hfound := List.mem_reverse.mp (List.mem_of_find?_eq_some hfind)
    have hsame := of_decide_eq_true (List.find?_some (p := fun other =>
      decide (routeKey toUpperCase other = key)) hfind)
    rw [List.inj_on_of_nodup_map h hfound hroute (hsame.trans hkey.symm)]

theorem harmless_of_hasBreaking {before after : List RouteSnapshot}
    (h : (diffRouteSnapshots toUpperCase before after).hasBreaking = false) :
    Harmless (diffRouteSnapshots toUpperCase before after).changes := by
  intro change hchange hbreaking
  have hnone := List.any_eq_false.mp h change hchange
  simp [hbreaking] at hnone

theorem serves_of_hasBreaking {before after : List RouteSnapshot}
    (hbefore : Snapshot toUpperCase before) (hafter : Snapshot toUpperCase after)
    (h : (diffRouteSnapshots toUpperCase before after).hasBreaking = false) :
    ∀ route ∈ before, (∃ other ∈ after, routeKey toUpperCase other = routeKey toUpperCase route) ∧
      ∀ other ∈ after, routeKey toUpperCase other = routeKey toUpperCase route →
        Serves (route.schema.getD .empty) (other.schema.getD .empty) := by
  intro route hroute
  have hharmless := harmless_of_hasBreaking h
  simp only [diffRouteSnapshots, harmless_append, harmless_flatMap] at hharmless
  have hchanges := hharmless.1 route hroute
  constructor
  · cases hfind : routeByKey toUpperCase after (routeKey toUpperCase route) with
    | none =>
      simp only [hfind] at hchanges
      exact (harmless_singleton.mp hchanges rfl).elim
    | some other =>
      exact ⟨other, List.mem_reverse.mp (List.mem_of_find?_eq_some hfind),
        of_decide_eq_true (List.find?_some (p := fun other =>
          decide (routeKey toUpperCase other = routeKey toUpperCase route)) hfind)⟩
  · intro other hother hkey
    simp only [routeByKey_of_mem hafter.keys hother hkey] at hchanges
    exact serves_of_harmless (hbefore.schema hroute) (hafter.schema hother) hchanges

end Nifra.Diff
