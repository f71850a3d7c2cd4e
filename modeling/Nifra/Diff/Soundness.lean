import Nifra.Diff.Routes

/-! # Comparing two schemas

A comparison that is not breaking keeps what a schema accepts, in the direction it was made for.
-/

namespace Nifra.Diff

open JSON

theorem lookup_filter (p : JSString → Bool) (fields : Fields) (name : JSString) :
    (fields.filter fun field => p field.1).lookup name =
      if p name then fields.lookup name else none := by
  induction fields with
  | nil => simp
  | cons field fields ih =>
    obtain ⟨key, value⟩ := field
    rw [List.filter_cons, List.lookup_cons]
    cases hname : name == key with
    | true =>
      rw [beq_iff_eq] at hname
      subst hname
      cases hp : p name with
      | true => simp
      | false => simpa [hp] using ih
    | false =>
      cases hp : p key with
      | true => simpa [List.lookup_cons, hname] using ih
      | false => simpa using ih

theorem lookup_without (names : List JSString) (fields : Fields) (name : JSString) :
    (without names fields).lookup name =
      if name ∈ names then none else fields.lookup name := by
  rw [without, lookup_filter fun name => !names.contains name]
  by_cases hname : name ∈ names <;> simp [hname]

theorem mem_of_lookup {fields : Fields} {name : JSString} {value : Value}
    (h : fields.lookup name = some value) : (name, value) ∈ fields := by
  obtain ⟨before, after, rfl, -⟩ := List.lookup_eq_some_iff.mp h
  simp

theorem mem_names_of_lookup {fields : Fields} {name : JSString} {value : Value}
    (h : fields.lookup name = some value) : name ∈ fields.map Prod.fst :=
  List.mem_map_of_mem (mem_of_lookup h)

theorem exists_lookup {fields : Fields} {name : JSString} (h : name ∈ fields.map Prod.fst) :
    ∃ value, fields.lookup name = some value := by
  cases hlookup : fields.lookup name with
  | some value => exact ⟨value, rfl⟩
  | none =>
    obtain ⟨⟨key, value⟩, hmem, rfl⟩ := List.mem_map.mp h
    exact absurd (List.lookup_eq_none_iff.mp hlookup _ hmem) (by simp)

theorem lookup_of_mem {fields : Fields} (hnodup : (fields.map Prod.fst).Nodup) {name : JSString}
    {value : Value} (h : (name, value) ∈ fields) : fields.lookup name = some value := by
  obtain ⟨other, hother⟩ := exists_lookup (List.mem_map_of_mem (f := Prod.fst) h)
  have heq := List.inj_on_of_nodup_map hnodup (mem_of_lookup hother) h rfl
  rw [hother, (Prod.mk.inj heq).2]

theorem printed_of_lookup {fields : Fields} (h : Printed (.object fields)) {name : JSString}
    {value : Value} (hlookup : fields.lookup name = some value) : Printed value :=
  (printed_object_iff.mp h).1 _ (mem_of_lookup hlookup)

theorem printed_without {fields : Fields} (h : Printed (.object fields)) (names : List JSString) :
    Printed (.object (without names fields)) := by
  obtain ⟨hprinted, hnodup⟩ := printed_object_iff.mp h
  refine printed_object_iff.mpr ⟨fun field hmem => hprinted field (List.mem_of_mem_filter hmem), ?_⟩
  exact hnodup.sublist (List.filter_sublist.map Prod.fst)

theorem jsonEqual_iff {a b : Value} (ha : Printed a) (hb : Printed b) :
    jsonEqual a b = true ↔ a = b := by
  rw [jsonEqual, decide_eq_true_eq]
  constructor
  · exact ha.stringify_injective hb
  · rintro rfl
    rfl

theorem enumOf_eq_some_iff {schema : Value} {items : List Value} : enumOf schema = some items ↔
    ∃ fields, schema = .object fields ∧ fields.lookup (js "enum") = some (.array items) := by
  constructor
  · intro h
    cases schema with
    | object fields =>
      refine ⟨fields, rfl, ?_⟩
      simp only [enumOf] at h
      split at h
      · next found hfound => rw [hfound, Option.some.inj h]
      · cases h
    | _ => cases h
  · rintro ⟨fields, rfl, h⟩
    simp [enumOf, h]

theorem isSuperset_subset {outer inner : List Value} (houter : ∀ item ∈ outer, Printed item)
    (hinner : ∀ item ∈ inner, Printed item) (h : isSuperset outer inner = true) :
    inner ⊆ outer := by
  intro value hvalue
  obtain ⟨other, hother, heq⟩ := List.any_eq_true.mp (List.all_eq_true.mp h value hvalue)
  exact (jsonEqual_iff (houter other hother) (hinner value hvalue)).mp heq ▸ hother

/-- Schemas that differ in the values of an `enum` alone, those of one among those of the other. -/
structure Refines (narrow wide : Value) : Prop where
  enums : ∃ fields others items values, narrow = .object fields ∧ wide = .object others ∧
    fields.lookup (js "enum") = some (.array items) ∧
    others.lookup (js "enum") = some (.array values) ∧ items ⊆ values ∧
    ∀ name ≠ js "enum", fields.lookup name = others.lookup name

theorem lookup_of_withoutEnum {fields others : Fields}
    (h : withoutEnum (.object fields) = withoutEnum (.object others)) (name : JSString)
    (hname : name ≠ js "enum") : fields.lookup name = others.lookup name := by
  have hlookup := congrArg (List.lookup name) (Value.object.inj h)
  rwa [lookup_without, lookup_without, if_neg (by simpa using hname),
    if_neg (by simpa using hname)] at hlookup

theorem compareJsonSchema_cases {direction : Direction} {before after : Value}
    (hbefore : Printed before) (hafter : Printed after)
    (h : compareJsonSchema direction before after ≠ some .breaking) :
    before = after ∨ (match direction with
      | .request => Refines before after
      | .response => Refines after before) := by
  unfold compareJsonSchema at h
  split at h
  · next heq => exact Or.inl ((jsonEqual_iff hbefore hafter).mp heq)
  split at h
  · next beforeEnum afterEnum hbeforeEnum hafterEnum =>
    obtain ⟨fields, rfl, hfields⟩ := enumOf_eq_some_iff.mp hbeforeEnum
    obtain ⟨others, rfl, hothers⟩ := enumOf_eq_some_iff.mp hafterEnum
    have hitems := printed_array_iff.mp (printed_of_lookup hbefore hfields)
    have hvalues := printed_array_iff.mp (printed_of_lookup hafter hothers)
    split at h
    · next hrest =>
      have hsame := (jsonEqual_iff (printed_without hbefore [js "enum"])
        (printed_without hafter [js "enum"])).mp hrest
      have hlookup := lookup_of_withoutEnum hsame
      right
      cases direction with
      | request =>
        have hsuper : isSuperset afterEnum beforeEnum = true := by
          by_contra hnot
          simp [hnot] at h
        exact ⟨fields, others, beforeEnum, afterEnum, rfl, rfl, hfields, hothers,
          isSuperset_subset hvalues hitems hsuper, hlookup⟩
      | response =>
        have hsuper : isSuperset beforeEnum afterEnum = true := by
          by_contra hnot
          simp [hnot] at h
        exact ⟨others, fields, afterEnum, beforeEnum, rfl, rfl, hothers, hfields,
          isSuperset_subset hitems hvalues hsuper, fun name hname => (hlookup name hname).symm⟩
    · exact (h rfl).elim
  · exact (h rfl).elim

theorem properties_congr {fields others : Fields}
    (h : fields.lookup (js "properties") = others.lookup (js "properties")) :
    properties fields = properties others := by
  rw [properties, properties, h]

theorem Refines.accepts {narrow wide value : Value} (h : Refines narrow wide)
    (haccepts : Accepts narrow value) : Accepts wide value := by
  obtain ⟨fields, others, items, values, rfl, rfl, hfields, hothers, hsubset, hsame⟩ := h.enums
  cases haccepts with
  | keywords htype henum hrequired hclosed hproperty hitems =>
    have hproperties : properties others = properties fields :=
      properties_congr (hsame _ (by decide)).symm
    refine .keywords ?_ ?_ ?_ ?_ ?_ ?_
    · rw [← hsame _ (by decide)]
      exact htype
    · rintro found hfound
      obtain rfl := Value.array.inj (Option.some.inj (hothers.symm.trans hfound))
      exact hsubset (henum items hfields)
    · rw [← hsame _ (by decide)]
      exact hrequired
    · rw [← hsame _ (by decide), hproperties]
      exact hclosed
    · rw [hproperties]
      exact hproperty
    · rw [← hsame _ (by decide)]
      exact hitems

theorem accepts_of_compareJsonSchema {direction : Direction} {before after : Value}
    (hbefore : Printed before) (hafter : Printed after)
    (h : compareJsonSchema direction before after ≠ some .breaking) (value : Value) :
    match direction with
    | .request => Accepts before value → Accepts after value
    | .response => Accepts after value → Accepts before value := by
  cases direction with
  | request =>
    rcases compareJsonSchema_cases hbefore hafter h with rfl | hrefines
    · exact id
    · exact hrefines.accepts
  | response =>
    rcases compareJsonSchema_cases hbefore hafter h with rfl | hrefines
    · exact id
    · exact hrefines.accepts

/-! ## A difference that breaks nothing

When no change is breaking, every request the first snapshot accepts is accepted by the second one,
and every response of the second one, cut down to the fields the first one declares, is one of the
first one.
-/

/-- A part of a snapshot: a schema of the fragment, with its own fields. -/
structure SchemaSnapshot.Sound (snapshot : SchemaSnapshot) (schema : Value) : Prop where
  jsonSchema : snapshot.jsonSchema = some schema
  fields : snapshot.fields = fieldsOf schema
  fragment : Fragment schema
  printed : Printed schema

/-- What a part of a route accepts; a part without a schema accepts everything. -/
def acceptsPart (snapshot : Option SchemaSnapshot) (value : Value) : Prop :=
  ∀ part ∈ snapshot, ∀ schema ∈ part.jsonSchema, Accepts schema value

def cut (snapshot : Option SchemaSnapshot) (value : Value) : Value :=
  match snapshot.bind SchemaSnapshot.fields, value with
  | some fields, .object members =>
    .object (members.filter fun member => fields.any fun field => field.name = member.1)
  | _, value => value

def isRequired (schema : Fields) (name : JSString) : Prop :=
  ∃ names, schema.lookup (js "required") = some (.array names) ∧ Value.string name ∈ names

structure Reflects (schema : Fields) (map : InsertionMap JSString ReflectedSchemaField) : Prop where
  mem : ∀ {name field}, map.get name = some field →
    (properties schema).lookup name = some field.schema ∧
      (field.required = true ↔ isRequired schema name)
  exists_get : ∀ {name property}, (properties schema).lookup name = some property →
    ∃ field, map.get name = some field

theorem fieldsOf_object {schema : Fields} (h : Fragment (.object schema)) :
    fieldsOf (.object schema) =
      match schema.lookup (js "properties") with
      | some _ => some ((properties schema).map fun (name, property) =>
          ⟨name, (match schema.lookup (js "required") with
            | some (.array names) => names
            | _ => []).any fun item => match item with
              | .string text => text = name
              | _ => false, property⟩)
      | none => none := by
  cases h with
  | schema _ _ objects property _ _ _ _ =>
    cases hproperties : schema.lookup (js "properties") with
    | none => simp [fieldsOf, hproperties]
    | some declared =>
      obtain ⟨schemas, rfl⟩ := objects declared hproperties
      have hdeclared : properties schema = schemas := by simp [properties, hproperties]
      simp only [fieldsOf, hproperties, hdeclared, Option.some.injEq]
      rw [← List.filterMap_eq_map]
      refine List.filterMap_congr fun field hfield => ?_
      obtain ⟨name, schema⟩ := field
      have hschema := property name schema (hdeclared ▸ hfield)
      cases hschema
      rfl

theorem nodup_properties {schema : Fields} (h : Printed (.object schema)) :
    ((properties schema).map Prod.fst).Nodup := by
  unfold properties
  split
  · next declared hdeclared => exact (printed_object_iff.mp (printed_of_lookup h hdeclared)).2
  · exact .nil

theorem printed_property {schema : Fields} (h : Printed (.object schema)) {name : JSString}
    {property : Value} (hlookup : (properties schema).lookup name = some property) :
    Printed property := by
  unfold properties at hlookup
  split at hlookup
  · next declared hdeclared => exact printed_of_lookup (printed_of_lookup h hdeclared) hlookup
  · cases hlookup

theorem reflects_fieldMap {schema : Fields} (h : Fragment (.object schema))
    (hprinted : Printed (.object schema)) {fields : List ReflectedSchemaField}
    (hfields : fieldsOf (.object schema) = some fields) : Reflects schema (fieldMap fields) := by
  rw [fieldsOf_object h] at hfields
  split at hfields
  · obtain rfl := Option.some.inj hfields
    have hnodup := nodup_properties hprinted
    constructor
    · intro name field hget
      rcases InsertionMap.of_get_foldl_set hget with hempty | ⟨found, hfound, hname, rfl⟩
      · cases hempty
      · obtain ⟨⟨key, property⟩, hmem, rfl⟩ := List.mem_map.mp hfound
        dsimp only at hname
        subst hname
        refine ⟨lookup_of_mem hnodup hmem, ?_⟩
        simp only [List.any_eq_true, isRequired]
        constructor
        · rintro ⟨item, hitem, heq⟩
          split at hitem
          · next names hnames =>
            refine ⟨names, hnames, ?_⟩
            split at heq
            · rwa [← of_decide_eq_true heq]
            · cases heq
          · cases hitem
        · rintro ⟨names, hnames, hitem⟩
          rw [hnames]
          exact ⟨.string key, hitem, by simp⟩
    · intro name property hlookup
      have hmem := List.mem_map_of_mem (f := fun (field : JSString × Value) =>
        (⟨field.1, (match schema.lookup (js "required") with
          | some (.array names) => names
          | _ => []).any fun item => match item with
            | .string text => text = field.1
            | _ => false, field.2⟩ : ReflectedSchemaField)) (mem_of_lookup hlookup)
      refine ⟨_, InsertionMap.get_foldl_set_of_mem hmem ?_⟩
      intro other hother hname
      obtain ⟨⟨key, found⟩, hfound, rfl⟩ := List.mem_map.mp hother
      dsimp only at hname
      subst hname
      have hsame := (lookup_of_mem hnodup hfound).symm.trans hlookup
      rw [Option.some.inj hsame]
  · cases hfields

def requiredNames (schema : Fields) : List Value :=
  match schema.lookup (js "required") with
  | some (.array names) => names
  | _ => []

def undeclared (schema : Fields) : List Value :=
  (requiredNames schema).filter fun name => !isDeclared (properties schema) name

theorem mem_requiredNames {schema : Fields} {name : JSString} :
    Value.string name ∈ requiredNames schema ↔ isRequired schema name := by
  unfold requiredNames isRequired
  split
  · next names hnames => simp [hnames]
  · next hother =>
    constructor
    · rintro ⟨⟩
    · rintro ⟨names, hnames, -⟩
      exact (hother names hnames).elim

theorem mem_undeclared {schema : Fields} {name : JSString} :
    Value.string name ∈ undeclared schema ↔
      isRequired schema name ∧ name ∉ (properties schema).map Prod.fst := by
  rw [undeclared, List.mem_filter, mem_requiredNames]
  refine and_congr_right fun _ => ?_
  rw [Bool.not_eq_true', ← Bool.not_eq_true, isDeclared]
  refine not_congr ?_
  simp [List.any_eq_true]

def requiredEntry (schema : Fields) : Fields :=
  if (undeclared schema).isEmpty then [] else [(js "required", .array (undeclared schema))]

theorem envelopeOf_object {schema : Fields} (h : Fragment (.object schema)) :
    envelopeOf (.object schema) =
      .object (without [js "properties", js "required"] schema ++ requiredEntry schema) := by
  cases h with
  | schema _ _ _ _ required _ _ _ =>
    cases hrequired : schema.lookup (js "required") with
    | none => simp [envelopeOf, hrequired, requiredEntry, undeclared, requiredNames]
    | some found =>
      obtain ⟨names, rfl⟩ := required found hrequired
      simp only [envelopeOf, hrequired, requiredEntry, undeclared, requiredNames]
      split <;> simp

theorem printed_envelopeOf {schema : Fields} (h : Fragment (.object schema))
    (hprinted : Printed (.object schema)) : Printed (envelopeOf (.object schema)) := by
  obtain ⟨hrest, hnodup⟩ := printed_object_iff.mp
    (printed_without hprinted [js "properties", js "required"])
  rw [envelopeOf_object h]
  refine printed_object_iff.mpr ⟨fun field hfield => ?_, ?_⟩
  · rcases List.mem_append.mp hfield with hfield | hfield
    · exact hrest field hfield
    · unfold requiredEntry at hfield
      split at hfield
      · cases hfield
      · rw [List.mem_singleton.mp hfield]
        refine printed_array_iff.mpr fun item hitem => ?_
        have hmem := List.mem_of_mem_filter hitem
        unfold requiredNames at hmem
        split at hmem
        · next names hnames =>
          exact printed_array_iff.mp (printed_of_lookup hprinted hnames) item hmem
        · cases hmem
  · rw [List.map_append, List.nodup_append']
    refine ⟨hnodup, ?_, ?_⟩
    · unfold requiredEntry
      split
      · exact .nil
      · exact List.nodup_singleton _
    · intro name hname hentry
      have hreq : name = js "required" := by
        unfold requiredEntry at hentry
        split at hentry
        · cases hentry
        · simpa using hentry
      obtain ⟨value, hvalue⟩ := exists_lookup hname
      rw [hreq, lookup_without, if_pos (by decide)] at hvalue
      cases hvalue

theorem lookup_envelope (schema : Fields) (name : JSString) :
    (without [js "properties", js "required"] schema ++ requiredEntry schema).lookup name =
      if name = js "required" then
        if (undeclared schema).isEmpty then none else some (.array (undeclared schema))
      else if name = js "properties" then none else schema.lookup name := by
  rw [List.lookup_append, lookup_without, requiredEntry]
  by_cases hrequired : name = js "required"
  · subst hrequired
    rw [if_pos (by decide), if_pos rfl]
    split_ifs <;> simp
  · have hentry : ∀ value : Value, List.lookup name [(js "required", value)] = none := by
      intro value
      rw [List.lookup_cons, beq_eq_false_iff_ne.mpr hrequired]
      rfl
    have hfields : List.lookup name (if (undeclared schema).isEmpty = true then []
        else [(js "required", Value.array (undeclared schema))]) = none := by
      split_ifs
      · rfl
      · exact hentry _
    rw [if_neg hrequired, hfields, Option.or_none]
    simp [hrequired]

theorem envelope_inj {before after : Fields} (hbefore : Fragment (.object before))
    (hafter : Fragment (.object after))
    (h : envelopeOf (.object before) = envelopeOf (.object after)) :
    (∀ name, name ≠ js "required" → name ≠ js "properties" →
      before.lookup name = after.lookup name) ∧ undeclared before = undeclared after := by
  rw [envelopeOf_object hbefore, envelopeOf_object hafter] at h
  have hlookup := fun name => congrArg (List.lookup name) (Value.object.inj h)
  simp only [lookup_envelope] at hlookup
  constructor
  · intro name hrequired hproperties
    have hname := hlookup name
    rwa [if_neg hrequired, if_neg hrequired, if_neg hproperties, if_neg hproperties] at hname
  · have hname := hlookup (js "required")
    rw [if_pos rfl, if_pos rfl] at hname
    split_ifs at hname with hb ha ha
    · rw [List.isEmpty_iff.mp hb, List.isEmpty_iff.mp ha]
    · exact Value.array.inj (Option.some.inj hname)

theorem envelope_eq {direction : Direction} {before after : Fields}
    (hbefore : Fragment (.object before)) (hafter : Fragment (.object after))
    (hprinted : Printed (.object before)) (hprinted' : Printed (.object after))
    (hproperties : before.lookup (js "properties") ≠ none)
    (hproperties' : after.lookup (js "properties") ≠ none)
    (h : compareJsonSchema direction (envelopeOf (.object before)) (envelopeOf (.object after)) ≠
      some .breaking) : envelopeOf (.object before) = envelopeOf (.object after) := by
  have hnoenum : ∀ {schema items : Fields} {values : List Value}, Fragment (.object schema) →
      schema.lookup (js "properties") ≠ none → envelopeOf (.object schema) = .object items →
        items.lookup (js "enum") ≠ some (.array values) := by
    intro schema items values hschema hdeclared heq henum
    rw [envelopeOf_object hschema] at heq
    rw [← Value.object.inj heq, lookup_envelope, if_neg (by decide), if_neg (by decide)] at henum
    cases hschema with
    | schema _ _ _ _ _ _ _ enum => exact hdeclared (enum _ henum).1
  rcases compareJsonSchema_cases (printed_envelopeOf hbefore hprinted)
    (printed_envelopeOf hafter hprinted') h with heq | hrefines
  · exact heq
  · exfalso
    cases direction with
    | request =>
      obtain ⟨fields, _, items, _, heq, _, hitems, _⟩ := hrefines.enums
      exact hnoenum hbefore hproperties heq hitems
    | response =>
      obtain ⟨fields, _, items, _, heq, _, hitems, _⟩ := hrefines.enums
      exact hnoenum hafter hproperties' heq hitems

def Harmless (changes : List RouteChange) : Prop := ∀ change ∈ changes, change.severity ≠ .breaking

theorem harmless_append {changes others : List RouteChange} :
    Harmless (changes ++ others) ↔ Harmless changes ∧ Harmless others :=
  List.forall_mem_append

theorem harmless_flatMap {α : Type*} {items : List α} {f : α → List RouteChange} :
    Harmless (items.flatMap f) ↔ ∀ item ∈ items, Harmless (f item) := by
  simp only [Harmless, List.mem_flatMap, forall_exists_index, and_imp]
  exact ⟨fun h item hitem change hchange => h change item hitem hchange,
    fun h change item hitem hchange => h item hitem change hchange⟩

theorem harmless_singleton {change : RouteChange} :
    Harmless [change] ↔ change.severity ≠ .breaking := List.forall_mem_singleton

theorem harmless_compared {ctx : SectionContext} {severity : Option DiffSeverity}
    {message : JSString} {field : Option JSString}
    (h : Harmless (ctx.compared severity message field)) : severity ≠ some .breaking := by
  rintro rfl
  exact h _ (List.mem_singleton.mpr rfl) rfl

/-- What the comparison of two object schemas has found, when it is not breaking. -/
structure Compatible (direction : Direction) (before after : Fields) : Prop where
  envelope : ∀ name, name ≠ js "required" → name ≠ js "properties" →
    before.lookup name = after.lookup name
  undeclared : undeclared before = undeclared after
  kept : ∀ {name schema}, (properties before).lookup name = some schema →
    ∃ other, (properties after).lookup name = some other ∧
      compareJsonSchema direction schema other ≠ some .breaking
  required : direction = .request → ∀ {name}, name ∈ (properties before).map Prod.fst →
    isRequired after name → isRequired before name
  required' : direction = .response → ∀ {name}, name ∈ (properties before).map Prod.fst →
    isRequired before name → isRequired after name
  added : direction = .request → ∀ {name}, name ∈ (properties after).map Prod.fst →
    name ∉ (properties before).map Prod.fst → ¬isRequired after name

theorem lookup_properties_ne {schema : Fields} {fields : List ReflectedSchemaField}
    (h : Fragment (.object schema)) (hfields : fieldsOf (.object schema) = some fields) :
    schema.lookup (js "properties") ≠ none := by
  intro hnone
  rw [fieldsOf_object h, hnone] at hfields
  cases hfields

theorem compatible_of_harmless {ctx : SectionContext} {before after : Fields}
    {beforePart afterPart : SchemaSnapshot} {beforeFields afterFields : List ReflectedSchemaField}
    (hbefore : Fragment (.object before)) (hafter : Fragment (.object after))
    (hprinted : Printed (.object before)) (hprinted' : Printed (.object after))
    (hpart : beforePart.fields = some beforeFields) (hpart' : afterPart.fields = some afterFields)
    (hfields : fieldsOf (.object before) = some beforeFields)
    (hfields' : fieldsOf (.object after) = some afterFields)
    (h : Harmless (diffFields ctx (.object before) (.object after) beforePart afterPart)) :
    Compatible ctx.direction before after := by
  simp only [diffFields, hpart, hpart', harmless_append, harmless_flatMap] at h
  obtain ⟨⟨henvelope, hfield⟩, hadded⟩ := h
  have hmap := reflects_fieldMap hbefore hprinted hfields
  have hmap' := reflects_fieldMap hafter hprinted' hfields'
  have hsame := envelope_inj hbefore hafter (envelope_eq hbefore hafter hprinted hprinted'
    (lookup_properties_ne hbefore hfields) (lookup_properties_ne hafter hfields')
    (harmless_compared henvelope))
  -- a field of the first schema, against the one of its name in the second
  have hboth : ∀ {name schema}, (properties before).lookup name = some schema →
      ∃ field other, (fieldMap beforeFields).get name = some field ∧ field.schema = schema ∧
        (fieldMap afterFields).get name = some other ∧
        Harmless (diffField ctx (fieldMap afterFields) name field) := by
    intro name schema hlookup
    obtain ⟨field, hget⟩ := hmap.exists_get hlookup
    have hharmless := hfield (name, field) (InsertionMap.get_eq_some_iff.mp hget)
    have hschema : field.schema = schema :=
      Option.some.inj ((hmap.mem hget).1.symm.trans hlookup)
    cases hother : (fieldMap afterFields).get name with
    | none =>
      simp only [diffField, hother] at hharmless
      exact (harmless_singleton.mp hharmless rfl).elim
    | some other => exact ⟨field, other, hget, hschema, rfl, hharmless⟩
  refine ⟨hsame.1, hsame.2, ?_, ?_, ?_, ?_⟩
  · intro name schema hlookup
    obtain ⟨field, other, hget, rfl, hother, hharmless⟩ := hboth hlookup
    simp only [diffField, hother, harmless_append] at hharmless
    exact ⟨other.schema, (hmap'.mem hother).1, harmless_compared hharmless.2⟩
  · intro hdirection name hname hafterRequired
    obtain ⟨schema, hlookup⟩ := exists_lookup hname
    obtain ⟨field, other, hget, -, hother, hharmless⟩ := hboth hlookup
    simp only [diffField, hother, harmless_append] at hharmless
    have hchanged := hharmless.1
    rw [← (hmap'.mem hother).2] at hafterRequired
    rw [← (hmap.mem hget).2]
    by_contra hnot
    rw [if_pos (by rw [hafterRequired]; exact hnot), harmless_singleton, hdirection] at hchanged
    simp [SectionContext.change, hafterRequired] at hchanged
  · intro hdirection name hname hbeforeRequired
    obtain ⟨schema, hlookup⟩ := exists_lookup hname
    obtain ⟨field, other, hget, -, hother, hharmless⟩ := hboth hlookup
    simp only [diffField, hother, harmless_append] at hharmless
    have hchanged := hharmless.1
    rw [← (hmap.mem hget).2] at hbeforeRequired
    rw [← (hmap'.mem hother).2]
    by_contra hnot
    rw [if_pos (by rw [hbeforeRequired]; exact Ne.symm hnot), harmless_singleton, hdirection]
      at hchanged
    simp [SectionContext.change, hnot] at hchanged
  · intro hdirection name hname hnew hafterRequired
    obtain ⟨schema, hlookup⟩ := exists_lookup hname
    obtain ⟨field, hget⟩ := hmap'.exists_get hlookup
    have hharmless := hadded (name, field) (InsertionMap.get_eq_some_iff.mp hget)
    have hnone : (fieldMap beforeFields).has name = false := by
      rw [InsertionMap.has, Bool.eq_false_iff]
      intro hsome
      obtain ⟨found, hfound⟩ := Option.isSome_iff_exists.mp hsome
      exact hnew (mem_names_of_lookup (hmap.mem hfound).1)
    have hrequired := (hmap'.mem hget).2.mpr hafterRequired
    simp only [addedField, hnone, hdirection] at hharmless
    rw [if_neg Bool.false_ne_true, harmless_singleton] at hharmless
    simp [SectionContext.change, hrequired] at hharmless

theorem closed_of_fields {schema : Fields} {fields : List ReflectedSchemaField}
    (h : Fragment (.object schema)) (hfields : fieldsOf (.object schema) = some fields) :
    schema.lookup (js "additionalProperties") = some (.bool false) ∧
      schema.lookup (js "enum") = none := by
  have hproperties := lookup_properties_ne h hfields
  cases h with
  | schema _ _ _ _ _ closed _ enum =>
    obtain ⟨declared, hdeclared⟩ := Option.ne_none_iff_exists'.mp hproperties
    refine ⟨closed ⟨declared, hdeclared⟩, ?_⟩
    cases henum : schema.lookup (js "enum") with
    | none => rfl
    | some items => exact absurd (enum items henum).1 hproperties

theorem Compatible.request {before after : Fields} {fields fields' : List ReflectedSchemaField}
    (h : Compatible .request before after) (hbefore : Fragment (.object before))
    (hafter : Fragment (.object after)) (hprinted : Printed (.object before))
    (hprinted' : Printed (.object after)) (hfields : fieldsOf (.object before) = some fields)
    (hfields' : fieldsOf (.object after) = some fields') {value : Value}
    (haccepts : Accepts (.object before) value) : Accepts (.object after) value := by
  obtain ⟨hclosed, -⟩ := closed_of_fields hbefore hfields
  obtain ⟨-, henum⟩ := closed_of_fields hafter hfields'
  have hkept : ∀ {name}, name ∈ (properties before).map Prod.fst →
      name ∈ (properties after).map Prod.fst := by
    intro name hname
    obtain ⟨schema, hlookup⟩ := exists_lookup hname
    obtain ⟨other, hother, -⟩ := h.kept hlookup
    exact mem_names_of_lookup hother
  cases haccepts with
  | keywords htype _ hrequired hdeclared hproperty hitems =>
    refine .keywords ?_ ?_ ?_ ?_ ?_ ?_
    · rw [← h.envelope _ (by decide) (by decide)]
      exact htype
    · rintro items hsome
      rw [henum] at hsome
      cases hsome
    · rintro required members hlookup rfl names rfl name hname
      have hafterRequired : isRequired after name := ⟨names, hlookup, hname⟩
      have hbeforeRequired : isRequired before name := by
        by_cases hdeclaredAfter : name ∈ (properties after).map Prod.fst
        · by_cases hdeclaredBefore : name ∈ (properties before).map Prod.fst
          · exact h.required rfl hdeclaredBefore hafterRequired
          · exact (h.added rfl hdeclaredAfter hdeclaredBefore hafterRequired).elim
        · have hmem := mem_undeclared.mpr ⟨hafterRequired, hdeclaredAfter⟩
          rw [← h.undeclared] at hmem
          exact (mem_undeclared.mp hmem).1
      obtain ⟨all, hall, hmem⟩ := hbeforeRequired
      exact hrequired _ members hall rfl all rfl name hmem
    · rintro - members rfl name hname
      exact hkept (hdeclared hclosed members rfl name hname)
    · rintro members name property member rfl hlookup hmember
      obtain ⟨schema, hschema⟩ :=
        exists_lookup (hdeclared hclosed members rfl name (mem_names_of_lookup hmember))
      obtain ⟨other, hother, hcompare⟩ := h.kept hschema
      obtain rfl := Option.some.inj (hother.symm.trans hlookup)
      have hmono := accepts_of_compareJsonSchema (printed_property hprinted hschema)
        (printed_property hprinted' hother) hcompare member
      exact hmono (hproperty members name schema member rfl hschema hmember)
    · rw [← h.envelope _ (by decide) (by decide)]
      exact hitems

theorem any_fieldsOf {schema : Fields} {fields : List ReflectedSchemaField}
    (h : Fragment (.object schema)) (hfields : fieldsOf (.object schema) = some fields)
    (name : JSString) : (fields.any fun field => field.name = name) = true ↔
      name ∈ (properties schema).map Prod.fst := by
  rw [fieldsOf_object h] at hfields
  split at hfields
  · obtain rfl := Option.some.inj hfields
    simp [List.any_eq_true]
  · cases hfields

theorem lookup_cut {fields : List ReflectedSchemaField} {members : Fields} {name : JSString}
    (h : (fields.any fun field => field.name = name) = true) :
    (members.filter fun member => fields.any fun field => field.name = member.1).lookup name =
      members.lookup name := by
  rw [lookup_filter fun key => fields.any fun field => field.name = key, if_pos h]

theorem Compatible.response {before after : Fields} {fields fields' : List ReflectedSchemaField}
    {part : SchemaSnapshot} (hpart : part.fields = some fields)
    (h : Compatible .response before after) (hbefore : Fragment (.object before))
    (hafter : Fragment (.object after)) (hprinted : Printed (.object before))
    (hprinted' : Printed (.object after)) (hfields : fieldsOf (.object before) = some fields)
    (hfields' : fieldsOf (.object after) = some fields') {value : Value}
    (haccepts : Accepts (.object after) value) :
    Accepts (.object before) (cut (some part) value) := by
  obtain ⟨hclosed, -⟩ := closed_of_fields hafter hfields'
  obtain ⟨-, henum⟩ := closed_of_fields hbefore hfields
  have hany := any_fieldsOf hbefore hfields
  have hobject : ∀ members, cut (some part) (.object members) =
      .object (members.filter fun member => fields.any fun field => field.name = member.1) := by
    intro members
    simp [cut, hpart]
  have hother : (∀ members, value ≠ .object members) → cut (some part) value = value := by
    intro hvalue
    unfold cut
    split
    · exact absurd rfl (hvalue _)
    · rfl
  cases haccepts with
  | keywords htype _ hrequired hdeclared hproperty hitems =>
    refine .keywords ?_ ?_ ?_ ?_ ?_ ?_
    · rw [h.envelope _ (by decide) (by decide)]
      intro type hlookup
      have hhas := htype type hlookup
      cases value with
      | object members =>
        rw [hobject]
        cases type <;> exact hhas
      | _ =>
        rw [hother (by simp)]
        exact hhas
    · rintro items hsome
      rw [henum] at hsome
      cases hsome
    · rintro required cutMembers hlookup hcut names rfl name hname
      have hbeforeRequired : isRequired before name := ⟨names, hlookup, hname⟩
      cases value with
      | object members =>
        rw [hobject] at hcut
        obtain rfl := Value.object.inj hcut
        have hin : isRequired after name → name ∈ members.map Prod.fst := by
          rintro ⟨all, hall, hmem⟩
          exact hrequired _ members hall rfl all rfl name hmem
        by_cases hdeclaredBefore : name ∈ (properties before).map Prod.fst
        · obtain ⟨⟨key, member⟩, hmem, rfl⟩ :=
            List.mem_map.mp (hin (h.required' rfl hdeclaredBefore hbeforeRequired))
          exact List.mem_map_of_mem (List.mem_filter.mpr ⟨hmem, (hany key).mpr hdeclaredBefore⟩)
        · have hmem := mem_undeclared.mpr ⟨hbeforeRequired, hdeclaredBefore⟩
          rw [h.undeclared] at hmem
          obtain ⟨hafterRequired, hnot⟩ := mem_undeclared.mp hmem
          exact (hnot (hdeclared hclosed members rfl name (hin hafterRequired))).elim
      | _ =>
        rw [hother (by simp)] at hcut
        cases hcut
    · rintro - cutMembers hcut name hname
      cases value with
      | object members =>
        rw [hobject] at hcut
        obtain rfl := Value.object.inj hcut
        obtain ⟨⟨key, member⟩, hmem, rfl⟩ := List.mem_map.mp hname
        exact (hany key).mp (List.mem_filter.mp hmem).2
      | _ =>
        rw [hother (by simp)] at hcut
        cases hcut
    · rintro cutMembers name property member hcut hlookup hmember
      cases value with
      | object members =>
        rw [hobject] at hcut
        obtain rfl := Value.object.inj hcut
        obtain ⟨other, hother, hcompare⟩ := h.kept hlookup
        rw [lookup_cut ((hany name).mpr (mem_names_of_lookup hlookup))] at hmember
        have hmono := accepts_of_compareJsonSchema (printed_property hprinted hlookup)
          (printed_property hprinted' hother) hcompare member
        exact hmono (hproperty members name other member rfl hother hmember)
      | _ =>
        rw [hother (by simp)] at hcut
        cases hcut
    · rw [h.envelope _ (by decide) (by decide)]
      rintro items elements element hlookup hcut
      cases value with
      | object members =>
        rw [hobject] at hcut
        cases hcut
      | _ =>
        rw [hother (by simp)] at hcut
        exact hitems items elements element hlookup hcut

end Nifra.Diff
