import Nifra.Postgres.PlanWalk

/-! # The walk of a plan reads what it names within reach -/

namespace Nifra.Postgres

inductive JSONValue.Holds (text : JSString) : JSONValue → Prop
  | string : Holds text (.string text)
  | item {items : List JSONValue} {item : JSONValue} (hitem : item ∈ items)
    (h : Holds text item) : Holds text (.array items)
  | field {fields : List (JSString × JSONValue)} {key : JSString} {value : JSONValue}
    (hfield : (key, value) ∈ fields) (h : Holds text value) : Holds text (.object fields)

def PlanNode.Mentions (node : PlanNode) (text : JSString) : Prop :=
  ∃ key value, (key, value) ∈ node.fields ∧ key ∉ planNameFields ∧
    key ∉ [js "Plan", js "Plans"] ∧ value.Holds text

def Scans (plan : JSONValue) (scan : JSString) (relation : PlanRelation) : Prop :=
  ∃ depth node, PlanNode.At plan false depth node ∧ node.scan? = some (scan, relation)

def UniqueAliases (plan : JSONValue) : Prop :=
  ∀ scan relation relation', Scans plan scan relation → Scans plan scan relation' →
    relation = relation'

/-- An output that lists the whole `Output` of the node, this text of it as this column. -/
def Listed (reads : PlanReads) (node : PlanNode) (text scan : JSString) (column : PlanColumn) :
    Prop :=
  node.own ∧ ∃ items, (js "Output", .array items) ∈ node.fields ∧ .string text ∈ items ∧
    ∃ output ∈ reads.outputs, output.relation = column.relation ∧
      column.column ∈ output.columns ∧
      ((items.filterMap (·.text?)).filter (!isNullConstant ·)).map plainColumn =
        output.columns.map fun column => some (scan, column)

structure Complete (plan : JSONValue) (reads : PlanReads) : Prop where
  relations : ∀ depth node, PlanNode.At plan false depth node →
    ∀ relation, node.relation? = some relation → relation ∈ reads.relations
  functions : ∀ depth node, PlanNode.At plan false depth node →
    ∀ function, node.function? = some function → function ∈ reads.functions
  columns : ∀ depth node, PlanNode.At plan false depth node → ∀ text, node.Mentions text →
    ∀ scan column relation, NamesColumn text scan column → Scans plan scan relation →
      ⟨relation, column⟩ ∈ reads.columns ∨ Listed reads node text scan ⟨relation, column⟩
  calls : ∀ depth node, PlanNode.At plan false depth node → ∀ text, node.Mentions text →
    ∀ call, NamesCall text call → call ∈ reads.calls

def Reached (plan : JSONValue) (node : PlanNode) : Prop :=
  ∃ depth ≤ 256, PlanNode.At plan false depth node

def ReachedScan (plan : JSONValue) (scan : JSString) (relation : PlanRelation) : Prop :=
  ∃ node, Reached plan node ∧ node.scan? = some (scan, relation)

def KeyedApart {V : Type*} (key : V → JSString) (read : V → Prop) (value : V) : Prop :=
  ∀ other, read other → key other = key value → other = value

def ReadsRelation (plan : JSONValue) (relation : PlanRelation) : Prop :=
  ∃ node, Reached plan node ∧ node.relation? = some relation

def ReadsFunction (plan : JSONValue) (function : PlanRelation) : Prop :=
  ∃ node, Reached plan node ∧ node.function? = some function

def ReadsColumn (plan : JSONValue) (column : PlanColumn) : Prop :=
  ∃ node key text scan, Reached plan node ∧ node.Text key text ∧
    NamesColumn text scan column.column ∧ ReachedScan plan scan column.relation

def ReadsCall (plan : JSONValue) (call : PgCall) : Prop :=
  ∃ node key text, Reached plan node ∧ node.Text key text ∧ NamesCall text call

/-- A constant in an `Output` that may be left out. -/
def PlanNode.Dropped (node : PlanNode) (key text : JSString) : Prop :=
  key = js "Output" ∧ node.own ∧ isNullConstant text

/-- Everything that the plan names within reach, and keyed apart, is read. -/
structure CompleteWithinReach (plan : JSONValue) (reads : PlanReads) : Prop where
  relations : ∀ relation, ReadsRelation plan relation →
    KeyedApart PlanRelation.key (ReadsRelation plan) relation → relation ∈ reads.relations
  functions : ∀ function, ReadsFunction plan function →
    KeyedApart PlanRelation.key (ReadsFunction plan) function → function ∈ reads.functions
  columns : ∀ node key text, Reached plan node → node.Text key text → ¬ node.Dropped key text →
    ∀ scan column relation, NamesColumn text scan column → ReachedScan plan scan relation →
      KeyedApart PlanColumn.key (ReadsColumn plan) ⟨relation, column⟩ →
      ⟨relation, column⟩ ∈ reads.columns ∨ Listed reads node text scan ⟨relation, column⟩
  calls : ∀ node key text, Reached plan node → node.Text key text → ¬ node.Dropped key text →
    ∀ call, NamesCall text call → KeyedApart PgCall.key (ReadsCall plan) call →
      call ∈ reads.calls

section Walk
variable {plan : JSONValue} {node : PlanNode}

theorem mem_visit_iff_reached : node ∈ visit 257 plan false ↔ Reached plan node := by
  rw [mem_visit_iff]
  exact ⟨fun ⟨d, hlt, h⟩ => ⟨d, Nat.le_of_lt_succ hlt, h⟩,
    fun ⟨d, hle, h⟩ => ⟨d, Nat.lt_succ_of_le hle, h⟩⟩

theorem mem_texts_iff {items : List JSONValue} {text : JSString} :
    text ∈ items.filterMap (·.text?) ↔ .string text ∈ items := by
  rw [List.mem_filterMap]
  constructor
  · rintro ⟨item, hitem, htext⟩
    cases item <;> cases htext
    exact hitem
  · exact fun h => ⟨_, h, rfl⟩

theorem PlanNode.Text.mem {key text : JSString} (h : node.Text key text) :
    text ∈ node.expressions ∨ key = js "Output" ∧ node.own ∧
      ∃ items, (key, .array items) ∈ node.fields ∧ .string text ∈ items ∧
        items.filterMap (·.text?) ∈ node.underProjection := by
  obtain ⟨hkey, hfield | ⟨items, hfield, hitem⟩⟩ := h
  · exact Or.inl (List.mem_flatMap.mpr ⟨_, hfield, by simp [hkey]⟩)
  · by_cases hown : key = js "Output" ∧ node.own
    · refine Or.inr ⟨hown.1, hown.2, items, hfield, hitem, ?_⟩
      exact List.mem_filterMap.mpr ⟨_, hfield, by simp [hown]⟩
    · refine Or.inl (List.mem_flatMap.mpr ⟨_, hfield, ?_⟩)
      simp only [hkey, hown, if_false]
      exact mem_texts_iff.mpr hitem

theorem PlanNode.text_of_mem_expressions {text : JSString} (h : text ∈ node.expressions) :
    ∃ key, node.Text key text := by
  obtain ⟨⟨key, value⟩, hfield, h⟩ := List.mem_flatMap.mp h
  refine ⟨key, ?_⟩
  by_cases hkey : key ∈ planNameFields
  · simp [hkey] at h
  · simp only [hkey, if_false] at h
    refine ⟨hkey, ?_⟩
    cases value with
    | string text' =>
      rw [List.mem_singleton] at h
      exact Or.inl (h ▸ hfield)
    | array items =>
      simp only at h
      split_ifs at h
      · cases h
      · exact Or.inr ⟨items, hfield, mem_texts_iff.mp h⟩
    | _ => cases h

theorem PlanNode.text_of_mem_underProjection {texts : List JSString} {text : JSString}
    (h : texts ∈ node.underProjection) (htext : text ∈ texts) : ∃ key, node.Text key text := by
  obtain ⟨⟨key, value⟩, hfield, h⟩ := List.mem_filterMap.mp h
  cases value with
  | array items =>
    simp only at h
    split_ifs at h with hown
    obtain rfl := Option.some.inj h
    exact ⟨key, by rw [hown.1]; decide, Or.inr ⟨items, hfield, mem_texts_iff.mp htext⟩⟩
  | _ => cases h

theorem get_aliasesOf (hunique : UniqueAliases plan) {scan : JSString} {relation : PlanRelation} :
    (aliasesOf (visit 257 plan false)).get scan = some relation ↔
      ReachedScan plan scan relation := by
  constructor
  · intro h
    rcases InsertionMap.of_get_foldl_set h with h | ⟨pair, hmem, rfl, rfl⟩
    · cases h
    · obtain ⟨node, hnode, hscan⟩ := List.mem_filterMap.mp hmem
      exact ⟨node, mem_visit_iff_reached.mp hnode, hscan⟩
  · rintro ⟨node, hnode, hscan⟩
    refine InsertionMap.get_foldl_set_of_mem (f := Prod.fst) (g := Prod.snd) (x := (scan, relation))
      (List.mem_filterMap.mpr ⟨node, mem_visit_iff_reached.mpr hnode, hscan⟩) ?_
    rintro ⟨scan', relation'⟩ hmem rfl
    obtain ⟨node', hnode', hscan'⟩ := List.mem_filterMap.mp hmem
    obtain ⟨depth, -, hat⟩ := hnode
    obtain ⟨depth', -, hat'⟩ := mem_visit_iff_reached.mp hnode'
    exact hunique _ _ _ ⟨depth', node', hat', hscan'⟩ ⟨depth, node, hat, hscan⟩

theorem mem_values_keyed {V : Type*} {key : V → JSString} (before : List V) {values : List V}
    {read : V → Prop} {value : V} (hmem : value ∈ values) (hread : ∀ other ∈ values, read other)
    (hapart : KeyedApart key read value) : value ∈ (keyed key (before ++ values)).values := by
  rw [keyed, List.foldl_append]
  refine InsertionMap.mem_values_iff.mpr ⟨key value, ?_⟩
  exact InsertionMap.get_foldl_set_of_mem (g := id) hmem
    fun other hother hkey => hapart other (hread other hother) hkey

end Walk

theorem resolveOutput_from {aliases : InsertionMap JSString PlanRelation} {scan : JSString}
    {relation : PlanRelation} {listed texts : List JSString} {output : PlanOutput}
    (hscan : aliases.get scan = some relation)
    (h : resolveOutput aliases (some (scan, relation)) listed texts = some output) :
    output.relation = relation ∧ ∃ columns, output.columns = listed ++ columns ∧
      (texts.filter (!isNullConstant ·)).map plainColumn =
        columns.map fun column => some (scan, column) := by
  induction texts generalizing listed with
  | nil =>
    obtain rfl := Option.some.inj h
    exact ⟨rfl, [], by simp⟩
  | cons text texts ih =>
    rw [resolveOutput] at h
    split_ifs at h with hnull
    · rw [List.filter_cons_of_neg (by simp [hnull])]
      exact ih h
    · rw [List.filter_cons_of_pos (by simp [hnull])]
      split at h
      · cases h
      · rename_i qualifier column hplain
        split at h
        · cases h
        · rename_i named hnamed
          split_ifs at h with hother
          obtain rfl : scan = qualifier := by simpa using hother
          obtain rfl := Option.some.inj (hscan.symm.trans hnamed)
          obtain ⟨hrelation, columns, hcolumns, hmap⟩ := ih h
          refine ⟨hrelation, column :: columns, by rw [hcolumns, List.append_assoc]; rfl, ?_⟩
          rw [List.map_cons, List.map_cons, hmap, hplain]

theorem resolveOutput_eq_some {aliases : InsertionMap JSString PlanRelation}
    {texts : List JSString} {output : PlanOutput}
    (h : resolveOutput aliases none [] texts = some output) :
    ∃ scan, aliases.get scan = some output.relation ∧
      (texts.filter (!isNullConstant ·)).map plainColumn =
        output.columns.map fun column => some (scan, column) := by
  induction texts with
  | nil => cases h
  | cons text texts ih =>
    rw [resolveOutput] at h
    split_ifs at h with hnull
    · rw [List.filter_cons_of_neg (by simp [hnull])]
      exact ih h
    · rw [List.filter_cons_of_pos (by simp [hnull])]
      split at h
      · cases h
      · rename_i qualifier column hplain
        split at h
        · cases h
        · rename_i named hnamed
          split_ifs at h with hother
          · obtain ⟨hrelation, columns, hcolumns, hmap⟩ := resolveOutput_from hnamed h
            refine ⟨qualifier, hrelation ▸ hnamed, ?_⟩
            rw [List.map_cons, hmap, hplain, hcolumns]
            rfl

theorem plainColumn_of_mem {texts columns : List JSString} {scan text : JSString}
    (hmap : (texts.filter (!isNullConstant ·)).map plainColumn =
      columns.map fun column => some (scan, column))
    (htext : text ∈ texts) (hnull : isNullConstant text = false) :
    ∃ column ∈ columns, plainColumn text = some (scan, column) := by
  have hplain : plainColumn text ∈ columns.map fun column => some (scan, column) := by
    rw [← hmap]
    exact List.mem_map_of_mem (List.mem_filter.mpr ⟨htext, by simp [hnull]⟩)
  obtain ⟨column, hcolumn, heq⟩ := List.mem_map.mp hplain
  exact ⟨column, hcolumn, heq.symm⟩

def expressionsOf (nodes : List PlanNode) : List JSString :=
  nodes.flatMap (·.expressions) ++ ((nodes.flatMap (·.underProjection)).filter fun texts =>
    (resolveOutput (aliasesOf nodes) none [] texts).isNone).flatten

theorem text_of_mem_expressionsOf {plan : JSONValue} {text : JSString}
    (h : text ∈ expressionsOf (visit 257 plan false)) :
    ∃ node key, Reached plan node ∧ node.Text key text := by
  rcases List.mem_append.mp h with h | h
  · obtain ⟨node, hnode, htext⟩ := List.mem_flatMap.mp h
    obtain ⟨key, hkey⟩ := node.text_of_mem_expressions htext
    exact ⟨node, key, mem_visit_iff_reached.mp hnode, hkey⟩
  · obtain ⟨texts, htexts, htext⟩ := List.mem_flatten.mp h
    obtain ⟨node, hnode, hunder⟩ := List.mem_flatMap.mp (List.mem_filter.mp htexts).1
    obtain ⟨key, hkey⟩ := node.text_of_mem_underProjection hunder htext
    exact ⟨node, key, mem_visit_iff_reached.mp hnode, hkey⟩

theorem mem_expressionsOf {plan : JSONValue} {node : PlanNode} {key text : JSString}
    (hnode : Reached plan node) (htext : node.Text key text) :
    text ∈ expressionsOf (visit 257 plan false) ∨ key = js "Output" ∧ node.own ∧
      ∃ items output, (js "Output", .array items) ∈ node.fields ∧ .string text ∈ items ∧
        resolveOutput (aliasesOf (visit 257 plan false)) none [] (items.filterMap (·.text?)) =
          some output ∧ output ∈ (planReads plan).outputs := by
  have hnode := mem_visit_iff_reached.mpr hnode
  rcases htext.mem with hmem | ⟨rfl, hown, items, hfield, hitem, hunder⟩
  · exact Or.inl (List.mem_append_left _ (List.mem_flatMap.mpr ⟨node, hnode, hmem⟩))
  · have hunder := List.mem_flatMap.mpr ⟨node, hnode, hunder⟩
    cases hresolve : resolveOutput (aliasesOf (visit 257 plan false)) none []
        (items.filterMap (·.text?)) with
    | none =>
      refine Or.inl (List.mem_append_right _ (List.mem_flatten.mpr ⟨_, ?_, mem_texts_iff.mpr hitem⟩))
      exact List.mem_filter.mpr ⟨hunder, by rw [hresolve]; rfl⟩
    | some output =>
      exact Or.inr ⟨rfl, hown, items, output, hfield, hitem, hresolve,
        List.mem_filterMap.mpr ⟨_, hunder, hresolve⟩⟩

theorem mem_columnsNamed {plan : JSONValue} (hunique : UniqueAliases plan) {text : JSString}
    {column : PlanColumn} :
    column ∈ columnsNamed (aliasesOf (visit 257 plan false)) (lexPostgres text).tokens ↔
      ∃ scan, NamesColumn text scan column.column ∧ ReachedScan plan scan column.relation := by
  rw [mem_columnsNamed_iff]
  constructor
  · rintro ⟨before, qualifier, dot, name, after, heq, hq, hget, hd, hn, hcolumn⟩
    exact ⟨qualifier.value, ⟨before, qualifier, dot, name, after, heq, hq, rfl, hd, hn, hcolumn⟩,
      (get_aliasesOf hunique).mp hget⟩
  · rintro ⟨scan, ⟨before, qualifier, dot, name, after, heq, hq, rfl, hd, hn, hcolumn⟩, hscan⟩
    exact ⟨before, qualifier, dot, name, after, heq, hq, (get_aliasesOf hunique).mpr hscan, hd, hn,
      hcolumn⟩

/-- The walk reads everything that a plan names within reach. -/
theorem planReads_complete {plan : JSONValue} (hunique : UniqueAliases plan) :
    CompleteWithinReach plan (planReads plan) := by
  constructor
  case relations =>
    rintro relation ⟨node, hnode, hrelation⟩ hapart
    refine mem_values_keyed [] (List.mem_filterMap.mpr
      ⟨node, mem_visit_iff_reached.mpr hnode, hrelation⟩) (fun other hother => ?_) hapart
    obtain ⟨node', hnode', hother⟩ := List.mem_filterMap.mp hother
    exact ⟨node', mem_visit_iff_reached.mp hnode', hother⟩
  case functions =>
    rintro function ⟨node, hnode, hfunction⟩ hapart
    refine mem_values_keyed [] (List.mem_filterMap.mpr
      ⟨node, mem_visit_iff_reached.mpr hnode, hfunction⟩) (fun other hother => ?_) hapart
    obtain ⟨node', hnode', hother⟩ := List.mem_filterMap.mp hother
    exact ⟨node', mem_visit_iff_reached.mp hnode', hother⟩
  case columns =>
    intro node key text hnode htext hkept scan column relation hnames hscan hapart
    rcases mem_expressionsOf hnode htext with hmem | ⟨rfl, hown, items, output, hfield, hitem,
      hresolve, houtput⟩
    · refine Or.inl (mem_values_keyed [] (List.mem_flatMap.mpr ⟨text, hmem,
        (mem_columnsNamed hunique).mpr ⟨scan, hnames, hscan⟩⟩) (fun other hother => ?_) hapart)
      obtain ⟨text', hmem', hother⟩ := List.mem_flatMap.mp hother
      obtain ⟨node', key', hnode', htext'⟩ := text_of_mem_expressionsOf hmem'
      obtain ⟨scan', hnames', hscan'⟩ := (mem_columnsNamed hunique).mp hother
      exact ⟨node', key', text', scan', hnode', htext', hnames', hscan'⟩
    · obtain ⟨scan', hget, hmap⟩ := resolveOutput_eq_some hresolve
      have hnull : isNullConstant text = false := by
        simpa [PlanNode.Dropped, hown] using hkept
      obtain ⟨column', hcolumn', hplain⟩ := plainColumn_of_mem hmap (mem_texts_iff.mpr hitem) hnull
      obtain ⟨rfl, rfl⟩ := Prod.mk.inj (plainColumn_of_names hnames hplain)
      have hget' := (get_aliasesOf hunique).mpr hscan
      obtain hrelation := Option.some.inj (hget.symm.trans hget')
      exact Or.inr ⟨hown, items, hfield, hitem, output, houtput, hrelation, hcolumn', hmap⟩
  case calls =>
    intro node key text hnode htext hkept call hnames hapart
    rcases mem_expressionsOf hnode htext with hmem | ⟨rfl, hown, items, output, -, hitem, hresolve,
      -⟩
    · refine mem_values_keyed _ (List.mem_flatMap.mpr ⟨text, hmem,
        mem_functionCalls_iff.mpr hnames⟩) (fun other hother => ?_) hapart
      obtain ⟨text', hmem', hother⟩ := List.mem_flatMap.mp hother
      obtain ⟨node', key', hnode', htext'⟩ := text_of_mem_expressionsOf hmem'
      exact ⟨node', key', text', hnode', htext', mem_functionCalls_iff.mp hother⟩
    · -- A plain column of a left-out `Output` calls nothing.
      obtain ⟨scan, -, hmap⟩ := resolveOutput_eq_some hresolve
      have hnull : isNullConstant text = false := by
        simpa [PlanNode.Dropped, hown] using hkept
      obtain ⟨column, -, hplain⟩ := plainColumn_of_mem hmap (mem_texts_iff.mpr hitem) hnull
      rw [plainColumn_of_namesCall hnames] at hplain
      cases hplain

def ordersScan : List (JSString × JSONValue) :=
  [(js "Node Type", .string (js "Seq Scan")), (js "Relation Name", .string (js "orders")),
    (js "Schema", .string (js "public")), (js "Alias", .string (js "t")),
    (js "Filter", .string (js "(t.id = 1)"))]

def underLimits : ℕ → JSONValue
  | 0 => .object ordersScan
  | levels + 1 =>
    .object [(js "Node Type", .string (js "Limit")), (js "Plans", .array [underLimits levels])]

theorem at_underLimits (levels : ℕ) :
    PlanNode.At (underLimits levels) false (2 * levels) ⟨ordersScan, false⟩ := by
  induction levels with
  | zero => exact .here
  | succ levels ih =>
    have hfield : [(js "Node Type", JSONValue.string (js "Limit")),
        (js "Plans", .array [underLimits levels])].lookup (js "Plans") =
          some (.array [underLimits levels]) := rfl
    exact .plans hfield (.item List.mem_cons_self ih)

theorem scan_of_at_underLimits {levels depth : ℕ} {node : PlanNode}
    (h : PlanNode.At (underLimits levels) false depth node) {scan : JSString × PlanRelation}
    (hscan : node.scan? = some scan) : scan = (js "t", ⟨js "public", js "orders"⟩) := by
  induction levels generalizing depth with
  | zero =>
    cases h with
    | here => exact (Option.some.inj hscan).symm
    | plan hfield => exact absurd hfield.symm (Option.some_ne_none _)
    | plans hfield => exact absurd hfield.symm (Option.some_ne_none _)
  | succ levels ih =>
    cases h with
    | here => cases hscan
    | plan hfield => exact absurd hfield.symm (Option.some_ne_none _)
    | plans hfield h =>
      obtain rfl := Option.some.inj hfield
      cases h with
      | item hitem h =>
        obtain rfl := List.mem_singleton.mp hitem
        exact ih h

theorem uniqueAliases_underLimits (levels : ℕ) : UniqueAliases (underLimits levels) := by
  rintro scan relation relation' ⟨_, _, hat, hscan⟩ ⟨_, _, hat', hscan'⟩
  have heq := (scan_of_at_underLimits hat hscan).trans (scan_of_at_underLimits hat' hscan').symm
  exact (Prod.mk.inj heq).2

theorem planReads_complete_underLimits :
    CompleteWithinReach (underLimits 128) (planReads (underLimits 128)) :=
  planReads_complete (uniqueAliases_underLimits 128)

/-- The walk does not meet a scan further down. -/
theorem relation_missed : ¬ ∀ plan, UniqueAliases plan → Complete plan (planReads plan) := by
  intro h
  have hmem := (h _ (uniqueAliases_underLimits 129)).relations _ _ (at_underLimits 129) _ rfl
  have hnone : (planReads (underLimits 129)).relations = [] := by decide +kernel
  rw [hnone] at hmem
  cases hmem

end Nifra.Postgres
