import Mathlib.Algebra.Order.Ring.Int
import Nifra.Lib.InsertionMap
import Nifra.Text.JSONValue

/-! # JSON Schemas as JSON values

What a schema accepts, keyword by keyword, and the schemas of the keywords `type`, `properties`,
`required`, `additionalProperties`, `items` and `enum` in which every object is closed.
-/

namespace Nifra.Diff

open JSON

abbrev Fields := List (JSString × Value)

def isIntegral (text : JSString) : Bool :=
  match readNumeral text with
  | none => false
  | some (n, _) =>
    let shift := n.exponent - n.fraction.length
    decide (0 ≤ shift ∨ 10 ^ (-shift).toNat ∣ natOfDigits (n.integer ++ n.fraction))

def hasType (type : JSString) : Value → Bool
  | .null => type = js "null"
  | .bool _ => type = js "boolean"
  | .number text => type = js "number" ∨ (type = js "integer" ∧ isIntegral text)
  | .string _ => type = js "string"
  | .array _ => type = js "array"
  | .object _ => type = js "object"

def acceptsType : Value → Value → Prop
  | .string type, value => hasType type value
  | .array types, value => ∃ type, Value.string type ∈ types ∧ hasType type value
  | _, _ => True

def acceptsRequired (required : Value) (members : Fields) : Prop :=
  ∀ names, required = .array names → ∀ name, Value.string name ∈ names → name ∈ members.map Prod.fst

def properties (schema : Fields) : Fields :=
  match schema.lookup (js "properties") with
  | some (.object declared) => declared
  | _ => []

/-- A value that meets every keyword of a schema; a keyword about objects or arrays says nothing of
other values. -/
inductive Accepts : Value → Value → Prop
  | all (value : Value) : Accepts (.bool true) value
  | keywords {schema : Fields} {value : Value}
      (type : ∀ type, schema.lookup (js "type") = some type → acceptsType type value)
      (enum : ∀ items, schema.lookup (js "enum") = some (.array items) → value ∈ items)
      (required : ∀ required members, schema.lookup (js "required") = some required →
        value = .object members → acceptsRequired required members)
      (closed : schema.lookup (js "additionalProperties") = some (.bool false) →
        ∀ members, value = .object members →
          ∀ name ∈ members.map Prod.fst, name ∈ (properties schema).map Prod.fst)
      (property : ∀ members name property member, value = .object members →
        (properties schema).lookup name = some property → members.lookup name = some member →
          Accepts property member)
      (items : ∀ items elements element, schema.lookup (js "items") = some items →
        value = .array elements → element ∈ elements → Accepts items element) :
      Accepts (.object schema) value

def keywords : List JSString :=
  [js "type", js "properties", js "required", js "additionalProperties", js "items", js "enum"]

def isScalar : Value → Bool
  | .object _ | .array _ => false
  | _ => true

/-- A schema of the fragment: `enum` stands on scalars, and an object is closed. -/
inductive Fragment : Value → Prop
  | schema {fields : Fields} (nodup : (fields.map Prod.fst).Nodup)
      (known : ∀ name ∈ fields.map Prod.fst, name ∈ keywords)
      (objects : ∀ declared, fields.lookup (js "properties") = some declared →
        ∃ schemas, declared = .object schemas)
      (property : ∀ name schema, (name, schema) ∈ properties fields → Fragment schema)
      (required : ∀ required, fields.lookup (js "required") = some required →
        ∃ names : List JSString, required = .array (names.map .string))
      (closed : (∃ declared, fields.lookup (js "properties") = some declared) →
        fields.lookup (js "additionalProperties") = some (.bool false))
      (items : ∀ items, fields.lookup (js "items") = some items → Fragment items)
      (enum : ∀ enum, fields.lookup (js "enum") = some enum →
        fields.lookup (js "properties") = none ∧
          ∃ items, enum = .array items ∧ ∀ item ∈ items, isScalar item) :
      Fragment (.object fields)

/-! ## Differences of route snapshots

Two snapshots of an app's routes are compared part by part. A change is breaking for the clients of
the first one, compatible, or not to be told.
-/

structure ReflectedSchemaField where
  name : JSString
  required : Bool
  schema : Value
  deriving Repr

structure SchemaSnapshot where
  jsonSchema : Option Value
  fields : Option (List ReflectedSchemaField)
  deriving Repr

structure RouteSnapshotSchema where
  headers : Option SchemaSnapshot
  cookies : Option SchemaSnapshot
  body : Option SchemaSnapshot
  query : Option SchemaSnapshot
  params : Option SchemaSnapshot
  response : Option SchemaSnapshot
  sse : Option SchemaSnapshot
  errors : Option (List (ℕ × SchemaSnapshot))
  deriving Repr

structure RouteSnapshot where
  method : JSString
  path : JSString
  schema : Option RouteSnapshotSchema
  deriving Repr

inductive DiffSeverity
  | breaking
  | compatible
  | info
  deriving DecidableEq, Repr

inductive ChangeSection
  | route
  | headers
  | cookies
  | body
  | query
  | params
  | response
  | sse
  | errors
  deriving DecidableEq, Repr

def ChangeSection.text : ChangeSection → JSString
  | route => js "route"
  | headers => js "headers"
  | cookies => js "cookies"
  | body => js "body"
  | query => js "query"
  | params => js "params"
  | response => js "response"
  | sse => js "sse"
  | errors => js "errors"

structure RouteChange where
  severity : DiffSeverity
  method : JSString
  path : JSString
  section_ : ChangeSection
  field : Option JSString
  message : JSString
  deriving DecidableEq, Repr

structure RoutesDiff where
  changes : List RouteChange
  hasBreaking : Bool
  deriving DecidableEq, Repr

/-- `fieldsOf` of the reflection: the properties of an object schema that are schemas. -/
def fieldsOf : Value → Option (List ReflectedSchemaField)
  | .object schema =>
    match schema.lookup (js "properties") with
    | some (.object properties) =>
      let required := match schema.lookup (js "required") with
        | some (.array names) => names
        | _ => []
      some (properties.filterMap fun (name, property) =>
        match property with
        | .bool _ | .object _ | .array _ =>
          some ⟨name, required.any fun item => match item with
            | .string text => text = name
            | _ => false, property⟩
        | _ => none)
    | _ => none
  | _ => none

inductive Direction
  | request
  | response
  deriving DecidableEq, Repr

def jsonEqual (a b : Value) : Bool := a.stringify = b.stringify

def enumOf : Value → Option (List Value)
  | .object schema =>
    match schema.lookup (js "enum") with
    | some (.array items) => some items
    | _ => none
  | _ => none

def without (names : List JSString) (fields : Fields) : Fields :=
  fields.filter fun field => !names.contains field.1

def withoutEnum : Value → Value
  | .object schema => .object (without [js "enum"] schema)
  | schema => schema

def isSuperset (outer inner : List Value) : Bool :=
  inner.all fun value => outer.any fun other => jsonEqual other value

/-- The only refinement that is proven is another `enum`, wider for a request or narrower for a
response; any other change is breaking. -/
def compareJsonSchema (direction : Direction) (before after : Value) : Option DiffSeverity :=
  if jsonEqual before after then none
  else
    match enumOf before, enumOf after with
    | some beforeEnum, some afterEnum =>
      if jsonEqual (withoutEnum before) (withoutEnum after) then
        let compatible := match direction with
          | .request => isSuperset afterEnum beforeEnum
          | .response => isSuperset beforeEnum afterEnum
        some (if compatible then .compatible else .breaking)
      else some .breaking
    | _, _ => some .breaking

structure SectionContext where
  method : JSString
  path : JSString
  section_ : ChangeSection
  direction : Direction

def SectionContext.change (ctx : SectionContext) (severity : DiffSeverity) (message : JSString)
    (field : Option JSString) : RouteChange :=
  ⟨severity, ctx.method, ctx.path, ctx.section_, field, message⟩

def SectionContext.compared (ctx : SectionContext) (severity : Option DiffSeverity)
    (message : JSString) (field : Option JSString) : List RouteChange :=
  severity.toList.map fun severity => ctx.change severity message field

def fieldMap (fields : List ReflectedSchemaField) :
    InsertionMap JSString ReflectedSchemaField :=
  fields.foldl (fun map field => map.set field.name field) ∅

def isDeclared (declared : Fields) : Value → Bool
  | .string name => declared.any fun field => field.1 = name
  | _ => false

/-- An object schema without its properties and the required names among them. -/
def envelopeOf : Value → Value
  | .object schema =>
    let rest := without [js "properties", js "required"] schema
    match schema.lookup (js "required") with
    | none => .object rest
    | some (.array names) =>
      let undeclared := names.filter fun name => !isDeclared (properties schema) name
      if undeclared.isEmpty then .object rest
      else .object (rest ++ [(js "required", .array undeclared)])
    | some required => .object (rest ++ [(js "required", required)])
  | schema => schema

def quoted (name : JSString) : JSString := js "\"" ++ name ++ js "\""

/-- A field of the first snapshot against the fields of the second one. -/
def diffField (ctx : SectionContext) (afterFields : InsertionMap JSString ReflectedSchemaField)
    (name : JSString) (beforeField : ReflectedSchemaField) : List RouteChange :=
  match afterFields.get name with
  | none => [ctx.change .breaking (js "field " ++ quoted name ++ js " removed") name]
  | some afterField =>
    (if beforeField.required ≠ afterField.required then
      let breaking := match ctx.direction with
        | .request => afterField.required
        | .response => !afterField.required
      [ctx.change (if breaking then .breaking else .compatible)
        (js "field " ++ quoted name ++ js " is now " ++
          (if afterField.required then js "required" else js "optional")) name]
    else []) ++
    ctx.compared (compareJsonSchema ctx.direction beforeField.schema afterField.schema)
      (js "field " ++ quoted name ++ js " type changed") name

def addedField (ctx : SectionContext) (beforeFields : InsertionMap JSString ReflectedSchemaField)
    (name : JSString) (afterField : ReflectedSchemaField) : List RouteChange :=
  if beforeFields.has name then []
  else
    match ctx.direction with
    | .request =>
      [ctx.change (if afterField.required then .breaking else .compatible)
        ((if afterField.required then js "required" else js "optional") ++ js " field " ++
          quoted name ++ js " added") name]
    | .response => [ctx.change .compatible (js "field " ++ quoted name ++ js " added") name]

def diffFields (ctx : SectionContext) (beforeSchema afterSchema : Value)
    (before after : SchemaSnapshot) : List RouteChange :=
  let changed := ctx.section_.text ++ js " schema changed"
  match before.fields, after.fields with
  | some beforeFields, some afterFields =>
    ctx.compared (compareJsonSchema ctx.direction (envelopeOf beforeSchema)
      (envelopeOf afterSchema)) changed none ++
    (fieldMap beforeFields).entries.flatMap (fun (name, field) =>
      diffField ctx (fieldMap afterFields) name field) ++
    (fieldMap afterFields).entries.flatMap (fun (name, field) =>
      addedField ctx (fieldMap beforeFields) name field)
  | _, _ =>
    ctx.compared (compareJsonSchema ctx.direction beforeSchema afterSchema) changed none

/-- The snapshots of two routes share no object: what is told apart by identity differs. -/
def diffSchemaSection (ctx : SectionContext) (before after : Option SchemaSnapshot) :
    List RouteChange :=
  match before, after with
  | none, none => []
  | none, some _ =>
    [ctx.change (if ctx.direction = .request then .breaking else .compatible)
      (ctx.section_.text ++ js " schema added") none]
  | some _, none =>
    [ctx.change (if ctx.direction = .request then .compatible else .breaking)
      (ctx.section_.text ++ js " schema removed") none]
  | some before, some after =>
    match before.jsonSchema, after.jsonSchema with
    | some beforeSchema, some afterSchema => diffFields ctx beforeSchema afterSchema before after
    | beforeSchema, afterSchema =>
      if beforeSchema.isSome ∨ afterSchema.isSome ∨ before.fields.isSome ∨ after.fields.isSome then
        [ctx.change .info
          (ctx.section_.text ++ js " schema is not introspectable - cannot verify compatibility")
          none]
      else []

def SchemaSnapshot.toJSON (snapshot : SchemaSnapshot) : Value :=
  .object ((snapshot.jsonSchema.toList.map fun schema => (js "jsonSchema", schema)) ++
    snapshot.fields.toList.map fun fields => (js "fields", .array (fields.map fun field =>
      .object [(js "name", .string field.name), (js "required", .bool field.required),
        (js "schema", field.schema)])))

/-- The errors of the first snapshot against those of the second one, for one status. -/
def diffError (method path : JSString) (after : List (ℕ × SchemaSnapshot)) (status : ℕ)
    (beforeSchema : SchemaSnapshot) : List RouteChange :=
  let ctx : SectionContext := ⟨method, path, .errors, .response⟩
  match after.lookup status with
  | none =>
    [ctx.change .breaking (js "error " ++ decimal status ++ js " removed from the contract")
      (decimal status)]
  | some afterSchema =>
    match beforeSchema.jsonSchema, afterSchema.jsonSchema with
    | some before, some after =>
      ctx.compared (compareJsonSchema .response before after)
        (js "error " ++ decimal status ++ js " schema changed") (decimal status)
    | _, _ =>
      if jsonEqual beforeSchema.toJSON afterSchema.toJSON then []
      else [ctx.change .info (js "error " ++ decimal status ++ js " schema is not introspectable")
        (decimal status)]

def diffErrors (method path : JSString) (before after : Option (List (ℕ × SchemaSnapshot))) :
    List RouteChange :=
  let beforeEntries := before.getD []
  let afterEntries := after.getD []
  beforeEntries.flatMap (fun (status, schema) =>
    diffError method path afterEntries status schema) ++
  afterEntries.flatMap fun (status, _) =>
    if (beforeEntries.lookup status).isSome then []
    else [⟨.compatible, method, path, .errors, decimal status,
      js "error " ++ decimal status ++ js " added to the contract"⟩]

def RouteSnapshotSchema.empty : RouteSnapshotSchema :=
  ⟨none, none, none, none, none, none, none, none⟩

def RouteSnapshotSchema.requests (schema : RouteSnapshotSchema) :
    List (ChangeSection × Option SchemaSnapshot) :=
  [(.headers, schema.headers), (.cookies, schema.cookies), (.body, schema.body),
    (.query, schema.query), (.params, schema.params)]

def RouteSnapshotSchema.responses (schema : RouteSnapshotSchema) :
    List (ChangeSection × Option SchemaSnapshot) :=
  [(.response, schema.response), (.sse, schema.sse)]

def diffSections (method path : JSString) (direction : Direction)
    (before after : List (ChangeSection × Option SchemaSnapshot)) : List RouteChange :=
  (before.zip after).flatMap fun (before, after) =>
    diffSchemaSection ⟨method, path, before.1, direction⟩ before.2 after.2

def diffRoute (beforeRoute afterRoute : RouteSnapshot) : List RouteChange :=
  let method := beforeRoute.method
  let path := beforeRoute.path
  let beforeSchema := beforeRoute.schema.getD .empty
  let afterSchema := afterRoute.schema.getD .empty
  diffSections method path .request beforeSchema.requests afterSchema.requests ++
  diffSections method path .response beforeSchema.responses afterSchema.responses ++
  diffErrors method path beforeSchema.errors afterSchema.errors

section Routes

variable (toUpperCase : JSString → JSString)

def routeKey (route : RouteSnapshot) : JSString :=
  toUpperCase route.method ++ js " " ++ route.path

/-- The route a map from the keys has under a key: the last one written. -/
def routeByKey (routes : List RouteSnapshot) (key : JSString) : Option RouteSnapshot :=
  routes.reverse.find? fun route => routeKey toUpperCase route = key

def diffRouteSnapshots (before after : List RouteSnapshot) : RoutesDiff :=
  let changes :=
    before.flatMap (fun beforeRoute =>
      match routeByKey toUpperCase after (routeKey toUpperCase beforeRoute) with
      | none => [⟨.breaking, beforeRoute.method, beforeRoute.path, .route, none,
          js "route removed"⟩]
      | some afterRoute => diffRoute beforeRoute afterRoute) ++
    after.flatMap fun afterRoute =>
      if before.any fun route =>
        routeKey toUpperCase route = routeKey toUpperCase afterRoute then []
      else [⟨.compatible, afterRoute.method, afterRoute.path, .route, none, js "route added"⟩]
  ⟨changes, changes.any fun change => change.severity = .breaking⟩

end Routes

end Nifra.Diff
