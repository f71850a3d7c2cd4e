import Mathlib.Data.List.Basic
import Mathlib.Data.List.Infix
import Mathlib.Tactic.Common
import Nifra.Lib.InsertionMap
import Nifra.Text.Utf8

/-! # The tokenizer of the Postgres parser layer

`lexPostgres` reads a text one lexical unit at a time. A unit is what the code reads in one
pass of its loop: it leaves the rest of the text, and one token unless it is a space, a
comment, a string or a dollar-quoted body.
-/

namespace Nifra.Postgres

inductive TokenKind
  | word
  | punct
  | number
  | param
  deriving DecidableEq, Repr

structure PgToken where
  kind : TokenKind
  /-- The identifier with its quotes removed, or the text of the token. -/
  value : JSString
  /-- An unquoted word. -/
  bare : Bool
  offset : ℕ
  deriving DecidableEq, Repr

structure PgLexResult where
  tokens : List PgToken
  unterminated : Bool
  unicodeIdentifier : Bool
  deriving DecidableEq, Repr

/-- The regular expression `\s`. -/
def isSpace (c : ℕ) : Bool :=
  decide (9 ≤ c ∧ c ≤ 13 ∨ c = 32 ∨ c = 0xA0 ∨ c = 0x1680 ∨ 0x2000 ≤ c ∧ c ≤ 0x200A ∨
    c = 0x2028 ∨ c = 0x2029 ∨ c = 0x202F ∨ c = 0x205F ∨ c = 0x3000 ∨ c = 0xFEFF)

def isDigit (c : ℕ) : Bool := decide (48 ≤ c ∧ c ≤ 57)

def isWordStart (c : ℕ) : Bool :=
  decide (65 ≤ c ∧ c ≤ 90 ∨ 97 ≤ c ∧ c ≤ 122 ∨ c = 95 ∨ 0x80 ≤ c ∧ c ≤ 0xFFFF)

def isTagPart (c : ℕ) : Bool := isWordStart c || isDigit c

def isWordPart (c : ℕ) : Bool := isTagPart c || decide (c = 36)

/-- The text after a string, its opening quote read; and whether it was never closed. -/
def skipString (escapes : Bool) : JSString → JSString × Bool
  | [] => ([], true)
  | [c] => ([], decide (c ≠ 39))
  | c :: d :: rest =>
    if escapes ∧ c = 92 then skipString escapes rest
    else if c = 39 then
      if d = 39 then skipString escapes rest else (d :: rest, false)
    else skipString escapes (d :: rest)

def skipLine : JSString → JSString
  | [] => []
  | c :: rest => if c = 10 then rest else skipLine rest

/-- The text after a block comment of this depth; and whether it was never closed. -/
def skipBlock : ℕ → JSString → JSString × Bool
  | 0, rest => (rest, false)
  | _ + 1, [] => ([], true)
  | _ + 1, [_] => ([], true)
  | depth + 1, c :: d :: rest =>
    if c = 47 ∧ d = 42 then skipBlock (depth + 2) rest
    else if c = 42 ∧ d = 47 then skipBlock depth rest
    else skipBlock (depth + 1) (d :: rest)

/-- A quoted identifier, its opening quote read: its text, the text after it, and whether it
was never closed. -/
def readQuoted : JSString → JSString × JSString × Bool
  | [] => ([], [], true)
  | [c] => if c = 34 then ([], [], false) else ([c], [], true)
  | c :: d :: rest =>
    if c = 34 then
      if d = 34 then
        let (value, rest', unterminated) := readQuoted rest
        (34 :: value, rest', unterminated)
      else ([], d :: rest, false)
    else
      let (value, rest', unterminated) := readQuoted (d :: rest)
      (c :: value, rest', unterminated)

/-- `DOLLAR_TAG`, on the 64 units from a dollar. -/
def dollarTag (text : JSString) : Option JSString :=
  match text.take 64 with
  | 36 :: rest =>
    let name := rest.takeWhile isTagPart
    if name.head?.all isWordStart ∧ (rest.drop name.length).head? = some 36 then
      some (36 :: name ++ [36])
    else none
  | _ => none

def afterTag (tag : JSString) : JSString → Option JSString
  | [] => none
  | c :: rest =>
    if tag.isPrefixOf (c :: rest) then some ((c :: rest).drop tag.length) else afterTag tag rest

def numberLength (text : JSString) : ℕ :=
  let digits := (text.takeWhile fun c => isDigit c || c = 95 || c = 46).length
  match text.drop digits with
  | e :: sign :: rest =>
    if (e = 69 ∨ e = 101) ∧ (isDigit sign ∨ sign = 43 ∨ sign = 45) then
      digits + 2 + (rest.takeWhile isDigit).length
    else digits
  | _ => digits

/-- One lexical unit: its token, the text after it, and what the result is told. -/
structure Lexeme where
  token : Option PgToken
  rest : JSString
  unterminated : Bool
  unicodeIdentifier : Bool
  deriving DecidableEq, Repr

namespace Lexeme

def skipped (rest : JSString) (unterminated : Bool) : Lexeme := ⟨none, rest, unterminated, false⟩

def read (kind : TokenKind) (text : JSString) (length : ℕ) (bare : Bool) (offset : ℕ) : Lexeme :=
  ⟨some ⟨kind, text.take length, bare, offset⟩, text.drop length, false, false⟩

end Lexeme

def readDollar (offset : ℕ) (text : JSString) : Lexeme :=
  match dollarTag text with
  | some tag =>
    match afterTag tag (text.drop tag.length) with
    | some rest => .skipped rest false
    | none => .skipped [] true
  | none =>
    if text.tail.head?.any isDigit then
      .read .param text ((text.tail.takeWhile isDigit).length + 1) false offset
    else .read .punct text 1 false offset

/-- One pass of the loop of `lexPostgres`, at a unit and the rest of the text. -/
def lexUnit (offset : ℕ) (char : ℕ) (rest : JSString) : Lexeme :=
  let next := rest.head?
  if isSpace char then .skipped rest false
  else if char = 45 ∧ next = some 45 then .skipped (skipLine rest) false
  else if char = 47 ∧ next = some 42 then
    .skipped (skipBlock 1 rest.tail).1 (skipBlock 1 rest.tail).2
  else if char = 39 then .skipped (skipString false rest).1 (skipString false rest).2
  else if char ∈ js "Ee" ∧ next = some 39 then
    .skipped (skipString true rest.tail).1 (skipString true rest.tail).2
  else if char ∈ js "Uu" ∧ next = some 38 ∧ rest.tail.head? = some 39 then
    .skipped (skipString false (rest.drop 2)).1 (skipString false (rest.drop 2)).2
  else if char ∈ js "Uu" ∧ next = some 38 ∧ rest.tail.head? = some 34 then
    ⟨none, rest.tail, false, true⟩
  else if char ∈ js "BbXxNn" ∧ next = some 39 then
    .skipped (skipString false rest.tail).1 (skipString false rest.tail).2
  else if char = 34 then
    let (value, rest', unterminated) := readQuoted rest
    ⟨some ⟨.word, value, false, offset⟩, rest', unterminated, false⟩
  else if char = 36 then readDollar offset (char :: rest)
  else if isWordStart char then
    .read .word (char :: rest) ((char :: rest).takeWhile isWordPart).length true offset
  else if isDigit char ∨ char = 46 ∧ next.any isDigit then
    .read .number (char :: rest) (numberLength (char :: rest)) false offset
  else .read .punct (char :: rest) 1 false offset

/-- The passes of the loop over a text that ends `length` units from the start. -/
def lexFrom (length : ℕ) : ℕ → JSString → PgLexResult
  | 0, _ => ⟨[], false, false⟩
  | _ + 1, [] => ⟨[], false, false⟩
  | fuel + 1, char :: rest =>
    let unit := lexUnit (length - (char :: rest).length) char rest
    let after := lexFrom length fuel unit.rest
    ⟨unit.token.toList ++ after.tokens, unit.unterminated || after.unterminated,
      unit.unicodeIdentifier || after.unicodeIdentifier⟩

/-- Every pass reads a unit, so as many passes as units read the text to its end. -/
def lexPostgres (sql : JSString) : PgLexResult := lexFrom sql.length sql.length sql

def PgToken.isPunct (t : PgToken) (value : JSString) : Bool :=
  decide (t.kind = .punct ∧ t.value = value)

def characterBytes (c : JSString) : ℕ := (utf8 (scalarOf c)).length

def nameBytes : ℕ := 63

def cutTo : ℕ → List JSString → JSString
  | _, [] => []
  | room, c :: cs => if room < characterBytes c then [] else c ++ cutTo (room - characterBytes c) cs

def identifier (token : PgToken) : JSString :=
  let value :=
    if token.bare then token.value.map fun c => if 65 ≤ c ∧ c ≤ 90 then c + 32 else c
    else token.value
  if ((characters value).map characterBytes).sum ≤ nameBytes then value
  else cutTo nameBytes (characters value)

structure PgCall where
  schema : Option JSString
  name : JSString
  deriving DecidableEq, Repr

def qualifierAt (tokens : List PgToken) : ℕ → Option PgToken
  | dot + 2 => if (tokens[dot + 1]?).any (·.isPunct (js ".")) then tokens[dot]? else none
  | _ => none

def callAt (tokens : List PgToken) : ℕ → Option PgCall
  | 0 => none
  | index + 1 => do
    let paren ← tokens[index + 1]?
    let callee ← tokens[index]?
    if paren.isPunct (js "(") ∧ callee.kind = .word then
      let qualifier := (qualifierAt tokens index).filter (·.kind = .word)
      some ⟨qualifier.map identifier, identifier callee⟩
    else none

/-- `JSON.stringify` of a pair whose first item may be null. -/
def pairKey (first : Option JSString) (second : JSString) : JSString :=
  js "[" ++ (first.elim (js "null") JSON.ofString) ++ js "," ++ JSON.ofString second ++ js "]"

def functionCalls (sql : JSString) : List PgCall :=
  let tokens := (lexPostgres sql).tokens
  (((List.range tokens.length).filterMap (callAt tokens)).foldl
    (fun calls call => calls.set (pairKey call.schema call.name) call)
    (∅ : InsertionMap JSString PgCall)).values

/-! ## What a plan reads

`planReads` walks a verbose JSON plan and collects, keyed by their texts, the relations and
functions its nodes name and the columns and calls its expressions name.
-/

/-- A parsed JSON document. A number is known by its text, an object by its properties in
order. -/
inductive JSONValue
  | null
  | boolean (value : Bool)
  | number (text : JSString)
  | string (text : JSString)
  | array (items : List JSONValue)
  | object (fields : List (JSString × JSONValue))

namespace JSONValue

mutual

def print : JSONValue → JSString
  | null => js "null"
  | boolean value => if value then js "true" else js "false"
  | number text => text
  | string text => text
  | array items => printItems items
  | object _ => js "[object Object]"

/-- `items.join()`, which prints `null` as nothing. -/
def printItems : List JSONValue → JSString
  | [] => []
  | [item] => printItem item
  | item :: item' :: items => printItem item ++ js "," ++ printItems (item' :: items)

def printItem : JSONValue → JSString
  | null => []
  | boolean value => if value then js "true" else js "false"
  | number text => text
  | string text => text
  | array items => printItems items
  | object _ => js "[object Object]"

end

def text? : JSONValue → Option JSString
  | string text => some text
  | _ => none

end JSONValue

structure PlanRelation where
  schema : JSString
  name : JSString
  deriving DecidableEq, Repr

structure PlanColumn where
  relation : PlanRelation
  column : JSString
  deriving DecidableEq, Repr

structure PlanOutput where
  relation : PlanRelation
  columns : List JSString
  deriving DecidableEq, Repr

structure PlanReads where
  relations : List PlanRelation
  functions : List PlanRelation
  columns : List PlanColumn
  outputs : List PlanOutput
  calls : List PgCall
  deriving DecidableEq, Repr

def passThroughNodes : List JSString :=
  [js "Limit", js "Sort", js "Incremental Sort", js "Material", js "Memoize", js "Hash",
    js "Gather", js "Gather Merge", js "Unique", js "LockRows"]

/-- Nodes whose own expressions are printed in terms of the base columns they use. -/
def projectingNodes : List JSString :=
  [js "Aggregate", js "Group", js "WindowAgg", js "Nested Loop", js "Hash Join",
    js "Merge Join", js "Result", js "ProjectSet"]

/-- Fields that name a node or a relation rather than hold an expression. -/
def planNameFields : List JSString :=
  [js "Node Type", js "Relation Name", js "Schema", js "Alias", js "Index Name", js "CTE Name",
    js "Function Name", js "Subplan Name", js "Parent Relationship"]

/-- An object of the plan, and whether its `Output` stands under a projecting node. -/
structure PlanNode where
  fields : List (JSString × JSONValue)
  own : Bool

namespace PlanNode

/-- A node visited as `projected`: the result of a sub-plan reaches its parent otherwise. -/
def visited (fields : List (JSString × JSONValue)) (projected : Bool) : PlanNode :=
  let role := (fields.lookup (js "Parent Relationship")).bind (·.text?)
  ⟨fields, projected && role ≠ some (js "SubPlan") && role ≠ some (js "InitPlan")⟩

variable (node : PlanNode)

def field (key : JSString) : Option JSONValue := node.fields.lookup key

def text? (key : JSString) : Option JSString := (node.field key).bind (·.text?)

def schema : JSString := (node.text? (js "Schema")).getD []

def relation? : Option PlanRelation :=
  (node.text? (js "Relation Name")).map fun name => ⟨node.schema, name⟩

def function? : Option PlanRelation :=
  (node.text? (js "Function Name")).map fun name => ⟨node.schema, name⟩

def scan? : Option (JSString × PlanRelation) :=
  node.relation?.map fun relation => ((node.text? (js "Alias")).getD relation.name, relation)

/-- Whether the outputs of its child plans stand under a projecting node. -/
def projects : Bool :=
  let type := ((node.field (js "Node Type")).map (·.print)).getD (js "undefined")
  if type ∈ passThroughNodes then node.own else decide (type ∈ projectingNodes)

/-- The strings of a field, an `Output` that may be left out apart. -/
def expressions : List JSString :=
  node.fields.flatMap fun (key, value) =>
    if key ∈ planNameFields then []
    else match value with
      | .string text => [text]
      | .array items =>
        if key = js "Output" ∧ node.own then [] else items.filterMap (·.text?)
      | _ => []

def underProjection : List (List JSString) :=
  node.fields.filterMap fun (key, value) =>
    match value with
    | .array items =>
      if key = js "Output" ∧ node.own then some (items.filterMap (·.text?)) else none
    | _ => none

end PlanNode

def visit : ℕ → JSONValue → Bool → List PlanNode
  | 0, _, _ => []
  | levels + 1, .array items, projected => items.flatMap fun item => visit levels item projected
  | levels + 1, .object fields, projected =>
    let node := PlanNode.visited fields projected
    let below (key : JSString) (projected : Bool) :=
      ((node.field key).map fun value => visit levels value projected).getD []
    node :: (below (js "Plan") false ++ below (js "Plans") node.projects)
  | _ + 1, _, _ => []

/-- The values keyed by their texts, a later one in the place of an earlier one. -/
def keyed {V : Type*} (key : V → JSString) (values : List V) : InsertionMap JSString V :=
  values.foldl (fun map value => map.set (key value) value) ∅

def PlanRelation.key (relation : PlanRelation) : JSString :=
  relation.schema ++ js "." ++ relation.name

def PlanColumn.key (column : PlanColumn) : JSString :=
  column.relation.schema ++ js "." ++ column.relation.name ++ js "." ++ column.column

def PgCall.key (call : PgCall) : JSString := pairKey (some (call.schema.getD [])) call.name

def aliasesOf (nodes : List PlanNode) : InsertionMap JSString PlanRelation :=
  (nodes.filterMap (·.scan?)).foldl (fun map scan => map.set scan.1 scan.2) ∅

def plainColumn (text : JSString) : Option (JSString × JSString) :=
  match (lexPostgres text).tokens with
  | [qualifier, dot, column] =>
    if qualifier.kind = .word ∧ dot.value = js "." ∧ column.kind = .word then
      some (qualifier.value, column.value)
    else none
  | _ => none

def isNullConstant (text : JSString) : Bool := (js "NULL::").isPrefixOf text

/-- The plain columns of one scan that an `Output` lists, constants left out. -/
def resolveOutput (aliases : InsertionMap JSString PlanRelation) :
    Option (JSString × PlanRelation) → List JSString → List JSString → Option PlanOutput
  | relation, listed, [] => relation.map fun (_, relation) => ⟨relation, listed⟩
  | relation, listed, text :: texts =>
    if isNullConstant text then resolveOutput aliases relation listed texts
    else match plainColumn text with
      | none => none
      | some (qualifier, column) =>
        match aliases.get qualifier with
        | none => none
        | some named =>
          -- Every scan has its relation for itself: two aliases are two relations.
          if relation.any fun (name, _) => name ≠ qualifier then none
          else resolveOutput aliases (some (qualifier, named)) (listed ++ [column]) texts

def columnsNamed (aliases : InsertionMap JSString PlanRelation) : List PgToken → List PlanColumn
  | qualifier :: dot :: column :: tokens =>
    let named :=
      if qualifier.kind = .word ∧ dot.isPunct (js ".") ∧
          (column.kind = .word ∨ column.isPunct (js "*")) then
        ((aliases.get qualifier.value).map fun relation => ⟨relation, column.value⟩).toList
      else []
    named ++ columnsNamed aliases (dot :: column :: tokens)
  | _ => []

def planReads (plan : JSONValue) : PlanReads :=
  let nodes := visit 257 plan false
  let relations := keyed PlanRelation.key (nodes.filterMap (·.relation?))
  let functions := keyed PlanRelation.key (nodes.filterMap (·.function?))
  let aliases := aliasesOf nodes
  let underProjection := nodes.flatMap (·.underProjection)
  let outputs := underProjection.filterMap (resolveOutput aliases none [])
  let unlisted := underProjection.filter fun texts => (resolveOutput aliases none [] texts).isNone
  let expressions := nodes.flatMap (·.expressions) ++ unlisted.flatten
  let columns := expressions.flatMap fun text =>
    columnsNamed aliases (lexPostgres text).tokens
  let scanned := functions.values.map fun function =>
    (⟨if function.schema = [] then none else some function.schema, function.name⟩ : PgCall)
  let calls := keyed PgCall.key (scanned ++ expressions.flatMap functionCalls)
  { relations := relations.values,
    functions := functions.values,
    columns := (keyed PlanColumn.key columns).values,
    outputs,
    calls := calls.values }

/-! ## What a plan names

The nodes of a plan by how deep they are, and what their texts name: an alias with a column,
or a call. The walk meets the nodes that are not too deep, and its maps keep what is keyed
apart.
-/

/-- A node so many levels below a value. An array and an object are one level each. -/
inductive PlanNode.At : JSONValue → Bool → ℕ → PlanNode → Prop
  | here {fields : List (JSString × JSONValue)} {projected : Bool} :
    At (.object fields) projected 0 (.visited fields projected)
  | item {items : List JSONValue} {item : JSONValue} {projected : Bool} {depth : ℕ}
    {node : PlanNode} (hitem : item ∈ items) (h : At item projected depth node) :
    At (.array items) projected (depth + 1) node
  | plan {fields : List (JSString × JSONValue)} {projected : Bool} {value : JSONValue} {depth : ℕ}
    {node : PlanNode} (hfield : fields.lookup (js "Plan") = some value)
    (h : At value false depth node) : At (.object fields) projected (depth + 1) node
  | plans {fields : List (JSString × JSONValue)} {projected : Bool} {value : JSONValue} {depth : ℕ}
    {node : PlanNode} (hfield : fields.lookup (js "Plans") = some value)
    (h : At value (PlanNode.visited fields projected).projects depth node) :
    At (.object fields) projected (depth + 1) node

theorem mem_visit_iff {levels : ℕ} {value : JSONValue} {projected : Bool} {node : PlanNode} :
    node ∈ visit levels value projected ↔ ∃ depth < levels, PlanNode.At value projected depth node := by
  constructor
  · intro h
    induction levels generalizing value projected with
    | zero => cases h
    | succ levels ih =>
      cases value with
      | array items =>
        obtain ⟨item, hitem, hnode⟩ := List.mem_flatMap.mp h
        obtain ⟨depth, hlt, hat⟩ := ih hnode
        exact ⟨depth + 1, Nat.succ_lt_succ hlt, .item hitem hat⟩
      | object fields =>
        have hbelow {key : JSString} {own : Bool}
            (hmem : node ∈ (((PlanNode.visited fields projected).field key).map
              fun value => visit levels value own).getD []) :
            ∃ value, fields.lookup key = some value ∧ node ∈ visit levels value own := by
          cases hfield : (PlanNode.visited fields projected).field key with
          | none =>
            rw [hfield] at hmem
            cases hmem
          | some value =>
            rw [hfield] at hmem
            exact ⟨value, hfield, hmem⟩
        simp only [visit, List.mem_cons, List.mem_append] at h
        rcases h with rfl | hplan | hplans
        · exact ⟨0, Nat.succ_pos _, .here⟩
        · obtain ⟨value, hfield, hmem⟩ := hbelow hplan
          obtain ⟨depth, hlt, hat⟩ := ih hmem
          exact ⟨depth + 1, Nat.succ_lt_succ hlt, .plan hfield hat⟩
        · obtain ⟨value, hfield, hmem⟩ := hbelow hplans
          obtain ⟨depth, hlt, hat⟩ := ih hmem
          exact ⟨depth + 1, Nat.succ_lt_succ hlt, .plans hfield hat⟩
      | _ => cases h
  · rintro ⟨depth, hlt, hat⟩
    obtain ⟨levels, rfl⟩ := Nat.exists_eq_add_of_lt hlt
    induction hat with
    | here => simp [visit]
    | @item items item projected depth node hitem _ ih =>
      refine List.mem_flatMap.mpr ⟨item, hitem, ?_⟩
      have := ih (by omega)
      rwa [show depth + levels + 1 = depth + 1 + levels by omega] at this
    | @plan fields projected value depth node hfield _ ih =>
      have := ih (by omega)
      rw [show depth + levels + 1 = depth + 1 + levels by omega] at this
      refine List.mem_cons_of_mem _ (List.mem_append_left _ ?_)
      simp only [PlanNode.field, PlanNode.visited, hfield, Option.map_some, Option.getD_some]
      exact this
    | @plans fields projected value depth node hfield _ ih =>
      have := ih (by omega)
      rw [show depth + levels + 1 = depth + 1 + levels by omega] at this
      refine List.mem_cons_of_mem _ (List.mem_append_right _ ?_)
      simp only [PlanNode.field] at hfield ⊢
      rw [PlanNode.visited] at this ⊢
      simp only [hfield, Option.map_some, Option.getD_some]
      exact this

/-- A string of an expression field: its value, or an item of its array. -/
def PlanNode.Text (node : PlanNode) (key text : JSString) : Prop :=
  key ∉ planNameFields ∧ ((key, .string text) ∈ node.fields ∨
    ∃ items, (key, .array items) ∈ node.fields ∧ .string text ∈ items)

def NamesColumn (text scan column : JSString) : Prop :=
  ∃ before qualifier dot name after,
    (lexPostgres text).tokens = before ++ qualifier :: dot :: name :: after ∧
    qualifier.kind = .word ∧ qualifier.value = scan ∧ dot.isPunct (js ".") ∧
    (name.kind = .word ∨ name.isPunct (js "*")) ∧ name.value = column

def qualifierOf (before : List PgToken) : Option JSString :=
  match before.reverse with
  | dot :: qualifier :: _ =>
    if dot.isPunct (js ".") ∧ qualifier.kind = .word then some (identifier qualifier) else none
  | _ => none

def NamesCall (text : JSString) (call : PgCall) : Prop :=
  ∃ before callee paren after, (lexPostgres text).tokens = before ++ callee :: paren :: after ∧
    callee.kind = .word ∧ paren.isPunct (js "(") ∧
    call = ⟨qualifierOf before, identifier callee⟩

theorem mem_columnsNamed_iff {aliases : InsertionMap JSString PlanRelation}
    {tokens : List PgToken} {column : PlanColumn} :
    column ∈ columnsNamed aliases tokens ↔ ∃ before qualifier dot name after,
      tokens = before ++ qualifier :: dot :: name :: after ∧ qualifier.kind = .word ∧
      aliases.get qualifier.value = some column.relation ∧ dot.isPunct (js ".") ∧
      (name.kind = .word ∨ name.isPunct (js "*")) ∧ name.value = column.column := by
  induction tokens using columnsNamed.induct aliases with
  | case1 qualifier dot name tokens ih =>
    rw [columnsNamed, List.mem_append, ih]
    constructor
    · rintro (hmem | ⟨before, q, d, n, after, heq, h⟩)
      · split_ifs at hmem with hnames
        · rw [Option.mem_toList, Option.map_eq_some_iff] at hmem
          obtain ⟨relation, hget, rfl⟩ := hmem
          exact ⟨[], qualifier, dot, name, tokens, rfl, hnames.1, hget, hnames.2.1, hnames.2.2, rfl⟩
        · cases hmem
      · exact ⟨qualifier :: before, q, d, n, after, by rw [heq]; rfl, h⟩
    · rintro ⟨before, q, d, n, after, heq, hq, hget, hd, hn, hcolumn⟩
      cases before with
      | nil =>
        simp only [List.nil_append, List.cons.injEq] at heq
        obtain ⟨rfl, rfl, rfl, rfl⟩ := heq
        refine Or.inl ?_
        rw [if_pos ⟨hq, hd, hn⟩, Option.mem_toList, Option.map_eq_some_iff]
        exact ⟨column.relation, hget, by rw [hcolumn]⟩
      | cons b before =>
        simp only [List.cons_append, List.cons.injEq] at heq
        exact Or.inr ⟨before, q, d, n, after, heq.2, hq, hget, hd, hn, hcolumn⟩
  | case2 tokens hshort =>
    rw [columnsNamed]
    · simp only [List.not_mem_nil, false_iff]
      rintro ⟨before, q, d, n, after, rfl, -⟩
      cases before with
      | nil => exact hshort q d n after rfl
      | cons b before =>
        cases before with
        | nil => exact hshort b q d (n :: after) rfl
        | cons b' before =>
          cases before with
          | nil => exact hshort b b' q (d :: n :: after) rfl
          | cons b'' before => exact hshort b b' b'' _ rfl
    · exact hshort

theorem plainColumn_of_names {text scan column : JSString} {plain : JSString × JSString}
    (h : NamesColumn text scan column) (hplain : plainColumn text = some plain) :
    plain = (scan, column) := by
  obtain ⟨before, qualifier, dot, name, after, heq, hq, rfl, hd, hn, rfl⟩ := h
  unfold plainColumn at hplain
  rw [heq] at hplain
  split at hplain
  · rename_i q d n htokens
    have hlen := congrArg List.length htokens
    simp only [List.length_append, List.length_cons, List.length_nil] at hlen
    obtain rfl : before = [] := List.eq_nil_of_length_eq_zero (by omega)
    obtain rfl : after = [] := List.eq_nil_of_length_eq_zero (by omega)
    simp only [List.nil_append, List.cons.injEq, and_true] at htokens
    obtain ⟨rfl, rfl, rfl⟩ := htokens
    split_ifs at hplain
    exact (Option.some.inj hplain).symm
  · cases hplain

theorem plainColumn_of_namesCall {text : JSString} {call : PgCall} (h : NamesCall text call) :
    plainColumn text = none := by
  obtain ⟨before, callee, paren, after, heq, hcallee, hparen, -⟩ := h
  obtain ⟨hpunct, hvalue⟩ : paren.kind = .punct ∧ paren.value = js "(" := by
    simpa [PgToken.isPunct] using hparen
  unfold plainColumn
  split
  · rename_i qualifier dot name htokens
    rw [heq] at htokens
    rw [if_neg]
    rintro ⟨-, hdot, hname⟩
    cases before with
    | nil =>
      obtain ⟨-, hrest⟩ := List.cons.inj htokens
      rw [(List.cons.inj hrest).1, hdot] at hvalue
      exact absurd hvalue (by decide)
    | cons b before =>
      rw [List.cons_append] at htokens
      obtain ⟨-, hrest⟩ := List.cons.inj htokens
      have hlen := congrArg List.length hrest
      simp only [List.length_append, List.length_cons, List.length_nil] at hlen
      obtain rfl : before = [] := List.eq_nil_of_length_eq_zero (by omega)
      obtain ⟨-, hlast⟩ := List.cons.inj hrest
      rw [(List.cons.inj hlast).1, hname] at hpunct
      cases hpunct
  · rfl

theorem pairKey_inj {s t : Option JSString} {x y : JSString} (h : pairKey s x = pairKey t y) :
    s = t ∧ x = y := by
  simp only [pairKey, List.append_assoc, List.append_cancel_left_eq] at h
  cases s with
  | none =>
    cases t with
    | none =>
      simp only [Option.elim_none, List.append_cancel_left_eq] at h
      exact ⟨rfl, (JSON.ofString_append_inj h).1⟩
    | some t => exact absurd (List.cons.inj h).1 (by decide)
  | some s =>
    cases t with
    | none => exact absurd (List.cons.inj h).1 (by decide)
    | some t =>
      obtain ⟨rfl, hrest⟩ := JSON.ofString_append_inj h
      simp only [List.append_cancel_left_eq] at hrest
      exact ⟨rfl, (JSON.ofString_append_inj hrest).1⟩

theorem qualifierOf_eq (before rest : List PgToken) : qualifierOf before =
    ((qualifierAt (before ++ rest) before.length).filter (·.kind = .word)).map identifier := by
  induction before using List.reverseRecOn with
  | nil => rfl
  | append_singleton before dot _ =>
    induction before using List.reverseRecOn with
    | nil => rfl
    | append_singleton before qualifier _ =>
      have hdot : (before ++ [qualifier] ++ [dot] ++ rest)[before.length + 1]? = some dot := by
        simp
      have hqualifier : (before ++ [qualifier] ++ [dot] ++ rest)[before.length]? =
          some qualifier := by
        simp
      rw [List.length_append, List.length_append, List.length_singleton, List.length_singleton,
        qualifierAt, hdot, hqualifier, qualifierOf]
      simp only [List.reverse_append, List.reverse_singleton, List.singleton_append,
        Option.any_some]
      by_cases hp : dot.isPunct (js ".") <;> by_cases hw : qualifier.kind = .word <;>
        simp [hp, hw, Option.filter]

theorem callAt_append (before : List PgToken) (callee paren : PgToken) (after : List PgToken) :
    callAt (before ++ callee :: paren :: after) (before.length + 1) =
      if paren.isPunct (js "(") ∧ callee.kind = .word then
        some ⟨qualifierOf before, identifier callee⟩ else none := by
  have hcallee : (before ++ callee :: paren :: after)[before.length]? = some callee := by simp
  have hparen : (before ++ callee :: paren :: after)[before.length + 1]? = some paren := by simp
  rw [qualifierOf_eq before (callee :: paren :: after)]
  simp only [callAt, hcallee, hparen]
  rfl

theorem exists_callAt_iff {tokens : List PgToken} {call : PgCall} :
    (∃ index, callAt tokens index = some call) ↔ ∃ before callee paren after,
      tokens = before ++ callee :: paren :: after ∧ callee.kind = .word ∧
      paren.isPunct (js "(") ∧ call = ⟨qualifierOf before, identifier callee⟩ := by
  constructor
  · rintro ⟨index, h⟩
    cases index with
    | zero => cases h
    | succ index =>
      have hcall := h
      obtain ⟨paren, hparen, h⟩ := Option.bind_eq_some_iff.mp h
      obtain ⟨callee, hcallee, -⟩ := Option.bind_eq_some_iff.mp h
      obtain ⟨hlt, hget⟩ := List.getElem?_eq_some_iff.mp hparen
      obtain ⟨hlt', hget'⟩ := List.getElem?_eq_some_iff.mp hcallee
      have hsplit : tokens = tokens.take index ++ callee :: paren :: tokens.drop (index + 2) := by
        conv_lhs => rw [← List.take_append_drop index tokens]
        rw [List.drop_eq_getElem_cons hlt', List.drop_eq_getElem_cons hlt, hget, hget']
      have hlen : (tokens.take index).length = index := by simp; omega
      have happend := callAt_append (tokens.take index) callee paren (tokens.drop (index + 2))
      rw [← hsplit, hlen, hcall] at happend
      split_ifs at happend with hnames
      exact ⟨_, callee, paren, _, hsplit, hnames.2, hnames.1, Option.some.inj happend⟩
  · rintro ⟨before, callee, paren, after, rfl, hcallee, hparen, rfl⟩
    exact ⟨before.length + 1, by rw [callAt_append, if_pos ⟨hparen, hcallee⟩]⟩

theorem mem_functionCalls_iff {text : JSString} {call : PgCall} :
    call ∈ functionCalls text ↔ NamesCall text call := by
  rw [functionCalls, InsertionMap.mem_values_iff, NamesCall, ← exists_callAt_iff]
  constructor
  · rintro ⟨key, h⟩
    rcases InsertionMap.of_get_foldl_set h with h | ⟨call', hmem, -, rfl⟩
    · cases h
    · obtain ⟨index, -, hindex⟩ := List.mem_filterMap.mp hmem
      exact ⟨index, hindex⟩
  · rintro ⟨index, h⟩
    have hlt : index < (lexPostgres text).tokens.length := by
      by_contra hge
      cases index with
      | zero => cases h
      | succ index =>
        obtain ⟨paren, hparen, -⟩ := Option.bind_eq_some_iff.mp h
        rw [List.getElem?_eq_none (by omega)] at hparen
        cases hparen
    refine ⟨pairKey call.schema call.name, InsertionMap.get_foldl_set_of_mem
      (List.mem_filterMap.mpr ⟨index, List.mem_range.mpr hlt, h⟩) fun call' _ hkey => ?_⟩
    obtain ⟨hschema, hname⟩ := pairKey_inj hkey
    cases call'; cases call
    rw [PgCall.mk.injEq]
    exact ⟨hschema, hname⟩

end Nifra.Postgres
