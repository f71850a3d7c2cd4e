import Nifra.Text.CanonicalJSON
import Nifra.Text.JSONUtf8
import Nifra.Tools.Contract

/-! # The effect ledger

The record of one request's effects. The head of its chain commits to the route, to what the route
declares and to the entries.
-/

namespace Nifra.Ledger

open JSON (Value ofString)
open Tools (validCapabilityId isLower isDigit)

abbrev EffectCost := InsertionMap JSString JSString

structure EffectEntryInput where
  effectId : Option JSString
  capability : JSString
  phase : Option JSString
  target : Option JSString
  cost : Option EffectCost
  digest : Option JSString
  error : Option JSString

/-- `at'` is the clock's time. -/
structure EffectEntry where
  seq : ℕ
  at' : JSString
  effectId : Option JSString
  capability : JSString
  phase : JSString
  target : Option JSString
  cost : Option EffectCost
  digest : Option JSString
  error : Option JSString

inductive LedgerError
  | typeError (message : JSString)
  | overflow (maxEntries : ℕ)
  | sealed
  deriving DecidableEq, Repr

def effectPhases : List JSString := [js "intent", js "committed", js "failed", js "compensated"]

def printableToken (maxLength : ℕ) (value : JSString) : Bool :=
  decide (value ≠ [] ∧ value.length ≤ maxLength) && value.all fun c => decide (33 ≤ c ∧ c ≤ 126)

def validDigest (value : JSString) : Bool :=
  decide (value.length = 64) && value.all fun c => isDigit c || decide (97 ≤ c ∧ c ≤ 102)

def validErrorCode : JSString → Bool
  | [] => false
  | c :: rest => isLower c && decide (rest.length ≤ 63) &&
      rest.all fun c => isLower c || isDigit c || (js "_.-").contains c

def isCount (text : JSString) : Bool :=
  (JSON.readNumeral text).any fun (numeral, rest) => !numeral.negative && rest.isEmpty

def costError (cost : EffectCost) : Option LedgerError :=
  if 8 < cost.size then some (.typeError (js "effect ledger: more than 8 cost axes"))
  else
    let refused := cost.entries.find? fun axis => !(validCapabilityId axis.1 && isCount axis.2)
    refused.map fun axis => .typeError (js "effect ledger: invalid cost axis " ++
      if validCapabilityId axis.1 then axis.1 else ofString axis.1)

structure EffectChain where
  hashes : List JSString
  head : JSString
  deriving DecidableEq, Repr

structure SealedEffectLedger where
  method : JSString
  path : JSString
  entries : List EffectEntry
  declared : List JSString
  chain : Option EffectChain

structure CreateRequestLedgerOptions where
  method : JSString
  path : JSString
  declared : List JSString
  maxEntries : ℕ
  chain : Bool

structure RequestLedger extends CreateRequestLedgerOptions where
  items : List EffectEntry
  sealResult : Option SealedEffectLedger

def toUpperCase (token : JSString) : JSString := token.map fun c => if isLower c then c - 32 else c

def createRequestLedger (options : CreateRequestLedgerOptions) :
    Except LedgerError RequestLedger :=
  if ¬ (printableToken 16 options.method ∧ options.path.head? = some 47) then
    .error (.typeError (js "effect ledger: method/path must be a route pattern"))
  else if isSafeInteger options.maxEntries = false ∨ options.maxEntries < 1 then
    .error (.typeError (js "effect ledger: maxEntries must be a positive safe integer"))
  else match options.declared.find? (!validCapabilityId ·) with
    | some id =>
      .error (.typeError (js "effect ledger: invalid declared capability " ++ ofString id))
    | none =>
      .ok { options with method := toUpperCase options.method, items := [], sealResult := none }

def RequestLedger.entry (ledger : RequestLedger) (input : EffectEntryInput) (at' : JSString) :
    Except LedgerError EffectEntry :=
  let phase := input.phase.getD (js "intent")
  if ledger.sealResult.isSome then .error .sealed
  else if ledger.maxEntries ≤ ledger.items.length then .error (.overflow ledger.maxEntries)
  else if ¬ validCapabilityId input.capability then
    .error (.typeError (js "effect ledger: invalid capability " ++ ofString input.capability))
  else if phase ∉ effectPhases then
    .error (.typeError (js "effect ledger: invalid phase " ++ ofString phase))
  else if ¬ input.effectId.all (printableToken 64) then
    .error (.typeError (js "effect ledger: invalid effectId"))
  else if ¬ input.target.all (printableToken 128) then
    .error (.typeError (js "effect ledger: invalid target"))
  else if ¬ input.digest.all validDigest then
    .error (.typeError (js "effect ledger: invalid digest"))
  else if ¬ input.error.all validErrorCode then
    .error (.typeError (js "effect ledger: error code must be a bounded lowercase token"))
  else if ¬ isCount at' then
    .error (.typeError (js "effect ledger: clock must return a finite non-negative number"))
  else match input.cost.bind costError with
    | some error => .error error
    | none => .ok { input with seq := ledger.items.length, at' := at', phase := phase }

def RequestLedger.append (ledger : RequestLedger) (input : EffectEntryInput) (at' : JSString) :
    Except LedgerError EffectEntry × RequestLedger :=
  match ledger.entry input at' with
  | .ok entry => (.ok entry, { ledger with items := ledger.items ++ [entry] })
  | .error error => (.error error, ledger)

def canonicalEntry (entry : EffectEntry) : JSString :=
  let optional (name : String) (value : Option JSString) : JSString :=
    (value.map fun value => js ",\"" ++ js name ++ js "\":" ++ ofString value).getD []
  let cost := (entry.cost.map fun cost => js ",\"cost\":\x7b" ++ (js ",").intercalate
    ((JSON.sortByKey cost.entries).map fun axis => ofString axis.1 ++ js ":" ++ axis.2) ++
      js "\x7d").getD []
  js "\x7b\"seq\":" ++ decimal entry.seq ++ js ",\"at\":" ++ entry.at' ++
    optional "effectId" entry.effectId ++ js ",\"capability\":" ++ ofString entry.capability ++
    js ",\"phase\":" ++ ofString entry.phase ++ optional "target" entry.target ++ cost ++
    optional "digest" entry.digest ++ optional "error" entry.error ++ js "\x7d"

def bytesToHex (bytes : List (Fin 256)) : JSString :=
  bytes.flatMap fun b : Fin 256 => [JSON.hexDigit (b.val / 16), JSON.hexDigit (b.val % 16)]

section Digest
variable (sha256 : List (Fin 256) → List (Fin 256))

def sha256Hex (text : JSString) : JSString :=
  bytesToHex (sha256 ((encodeUtf8 text).map (Fin.ofNat 256)))

def header (ledger : RequestLedger) : Value :=
  .object [(js "method", .string ledger.method), (js "path", .string ledger.path),
    (js "declared", .array ((ledger.declared.mergeSort fun a b => decide (a ≤ b)).map .string))]

def chainOf (ledger : RequestLedger) : EffectChain :=
  ledger.items.foldl (fun chain entry =>
    let previous := sha256Hex sha256 (chain.head ++ canonicalEntry entry)
    ⟨chain.hashes ++ [previous], previous⟩) ⟨[], sha256Hex sha256 (header ledger).stringify⟩

def RequestLedger.sealOnce (ledger : RequestLedger) : SealedEffectLedger :=
  { ledger with
    entries := ledger.items
    chain := if ledger.chain then some (chainOf sha256 ledger) else none }

def RequestLedger.seal (ledger : RequestLedger) : RequestLedger :=
  { ledger with sealResult := some (ledger.sealResult.getD (ledger.sealOnce sha256)) }

inductive Call
  | append (input : EffectEntryInput) (at' : JSString)
  | seal

def RequestLedger.step (ledger : RequestLedger) : Call → RequestLedger
  | .append input at' => (ledger.append input at').2
  | .seal => ledger.seal sha256

def RequestLedger.run (ledger : RequestLedger) (calls : List Call) : RequestLedger :=
  calls.foldl (step sha256) ledger

end Digest

/-- The members of an entry's object, in their order, as far as the entry has them. -/
def EffectEntry.fields (entry : EffectEntry) : List (JSString × Option Value) :=
  [(js "seq", some (.number (decimal entry.seq))), (js "at", some (.number entry.at')),
    (js "effectId", entry.effectId.map .string), (js "capability", some (.string entry.capability)),
    (js "phase", some (.string entry.phase)), (js "target", entry.target.map .string),
    (js "cost", entry.cost.map fun cost =>
      .object ((JSON.sortByKey cost.entries).map fun axis => (axis.1, .number axis.2))),
    (js "digest", entry.digest.map .string), (js "error", entry.error.map .string)]

def present (fields : List (JSString × Option Value)) : List (JSString × Value) :=
  fields.filterMap fun field => field.2.map (field.1, ·)

theorem mem_present {fields : List (JSString × Option Value)} {field : JSString × Value} :
    field ∈ present fields ↔ (field.1, some field.2) ∈ fields := by
  obtain ⟨name, value⟩ := field
  simp [present]

theorem names_present_sublist (fields : List (JSString × Option Value)) :
    ((present fields).map Prod.fst).Sublist (fields.map Prod.fst) := by
  induction fields with
  | nil => exact .refl _
  | cons field fields ih =>
    obtain ⟨name, value | value⟩ := field
    · exact ih.cons _
    · exact ih.cons_cons _

/-- Members with different names are told apart by what is there of them. -/
theorem present_injective {fields fields' : List (JSString × Option Value)}
    (hnames : fields.map Prod.fst = fields'.map Prod.fst) (hnodup : (fields.map Prod.fst).Nodup)
    (h : present fields = present fields') : fields = fields' := by
  have habsent {name : JSString} {value : Value} {rest : List (JSString × Value)}
      {fields : List (JSString × Option Value)} (hname : name ∉ fields.map Prod.fst) :
      present fields ≠ (name, value) :: rest := by
    intro hpresent
    have hmem := mem_present.mp (hpresent ▸ List.mem_cons_self)
    exact hname (List.mem_map_of_mem hmem)
  induction fields generalizing fields' with
  | nil => exact (List.map_eq_nil_iff.mp hnames.symm).symm
  | cons field fields ih =>
    cases fields' with
    | nil => cases hnames
    | cons field' fields' =>
      obtain ⟨name, value⟩ := field
      obtain ⟨name', value'⟩ := field'
      obtain ⟨hname, hrest⟩ := List.cons.inj hnames
      obtain ⟨hnot, hnodup'⟩ := List.nodup_cons.mp hnodup
      obtain rfl : name = name' := hname
      have hnot' : name ∉ fields'.map Prod.fst := hrest ▸ hnot
      cases value with
      | none =>
        cases value' with
        | none => rw [ih hrest hnodup' h]
        | some value' =>
          have hpresent : present fields = (name, value') :: present fields' := h
          exact absurd hpresent (habsent hnot)
      | some value =>
        cases value' with
        | none =>
          have hpresent : present fields' = (name, value) :: present fields := h.symm
          exact absurd hpresent (habsent hnot')
        | some value' =>
          obtain ⟨hhead, htail⟩ := List.cons.inj h
          rw [ih hrest hnodup' htail, (Prod.mk.inj hhead).2]

def memberText (field : JSString × Value) : JSString :=
  js "," ++ ofString field.1 ++ js ":" ++ field.2.stringify

theorem stringifyFields_present (fields : List (JSString × Option Value)) :
    Value.stringifyFields (present fields) =
      (fields.map fun field => (field.2.map fun v => memberText (field.1, v)).getD []).flatten ++
        js "\x7d" := by
  induction fields with
  | nil => rfl
  | cons field fields ih =>
    rw [List.map_cons, List.flatten_cons, List.append_assoc, ← ih]
    obtain ⟨name, value | value⟩ := field
    · rfl
    · change Value.stringifyFields ((name, value) :: present fields) = _
      rw [Value.stringifyFields]
      rfl

theorem stringify_axes (axes : List (JSString × JSString)) :
    (Value.object (axes.map fun axis => (axis.1, .number axis.2))).stringify =
      js "\x7b" ++ (js ",").intercalate
        (axes.map fun axis => ofString axis.1 ++ js ":" ++ axis.2) ++ js "\x7d" := by
  have hfront (front text : JSString) (texts : List JSString) :
      (js ",").intercalate ((front ++ text) :: texts) =
        front ++ (js ",").intercalate (text :: texts) := by
    cases texts <;> simp [List.intercalate]
  have hnext (text text' : JSString) (texts : List JSString) :
      (js ",").intercalate (text :: text' :: texts) =
        text ++ js "," ++ (js ",").intercalate (text' :: texts) := by simp [List.intercalate]
  have hrest (text : JSString) (axes : List (JSString × JSString)) :
      text ++ Value.stringifyFields (axes.map fun axis => (axis.1, .number axis.2)) =
        (js ",").intercalate (text :: axes.map fun axis => ofString axis.1 ++ js ":" ++ axis.2) ++
          js "\x7d" := by
    induction axes generalizing text with
    | nil => simp [Value.stringifyFields, List.intercalate]
    | cons axis axes ih =>
      rw [List.map_cons, List.map_cons, Value.stringifyFields, List.append_assoc, ih,
        Value.stringify, hnext, hfront]
      simp only [List.append_assoc]
  cases axes with
  | nil => rfl
  | cons axis axes =>
    rw [List.map_cons, List.map_cons, List.append_assoc, ← hrest]
    simp [Value.stringify]

theorem canonicalEntry_eq (entry : EffectEntry) :
    canonicalEntry entry = (Value.object (present entry.fields)).stringify := by
  have hobject : (Value.object (present entry.fields)).stringify = js "\x7b\"seq\":" ++
      decimal entry.seq ++ Value.stringifyFields (present entry.fields.tail) := rfl
  have hcost (cost : EffectCost) :
      memberText (js "cost", .object ((JSON.sortByKey cost.entries).map
        fun axis => (axis.1, .number axis.2))) = js ",\"cost\":\x7b" ++ (js ",").intercalate
      ((JSON.sortByKey cost.entries).map fun axis => ofString axis.1 ++ js ":" ++ axis.2) ++
        js "\x7d" := by
    rw [memberText, stringify_axes]
    rfl
  rw [hobject, stringifyFields_present, canonicalEntry]
  simp only [EffectEntry.fields, List.tail_cons, List.map_cons, List.map_nil, List.flatten_cons,
    List.flatten_nil, List.append_nil, Option.map_map, Option.map_some, Option.getD_some,
    List.append_assoc, Function.comp_def, hcost]
  rfl

theorem names_fields (entry : EffectEntry) : (entry.fields.map Prod.fst).Nodup ∧
    ∀ name ∈ entry.fields.map Prod.fst, ∀ c ∈ name, c < 0x10000 := by
  let names := [js "seq", js "at", js "effectId", js "capability", js "phase", js "target",
    js "cost", js "digest", js "error"]
  exact (by decide : names.Nodup ∧ ∀ name ∈ names, ∀ c ∈ name, c < 0x10000)

/-- Entries that differ at most in the order of the axes of their costs. -/
structure EffectEntry.Agrees (entry entry' : EffectEntry) : Prop where
  rest : { entry with cost := none } = { entry' with cost := none }
  cost : Option.Rel (fun cost cost' => cost.entries.Perm cost'.entries) entry.cost entry'.cost

theorem agrees_of_fields {entry entry' : EffectEntry} (h : entry.fields = entry'.fields) :
    entry.Agrees entry' := by
  have hstring : Function.Injective (Option.map Value.string) :=
    Option.map_injective fun _ _ h => Value.string.inj h
  simp only [EffectEntry.fields, List.cons.injEq, Prod.mk.injEq, true_and, and_true,
    Option.some.injEq, Value.number.injEq, Value.string.injEq] at h
  obtain ⟨hseq, hat, hid, hcapability, hphase, htarget, hcost, hdigest, herror⟩ := h
  refine ⟨?_, ?_⟩
  · rw [EffectEntry.mk.injEq]
    exact ⟨decimal_injective hseq, hat, hstring hid, hcapability, hphase, hstring htarget, rfl,
      hstring hdigest, hstring herror⟩
  · generalize entry.cost = cost, entry'.cost = cost' at hcost
    match cost, cost', hcost with
    | none, none, _ => exact .none
    | some cost, some cost', hcost =>
      have hinj : Function.Injective
          fun axis : JSString × JSString => (axis.1, Value.number axis.2) := fun _ _ h =>
         Prod.ext (Prod.mk.inj h).1 (Value.number.inj (Prod.mk.inj h).2)
      have haxes := List.map_injective_iff.mpr hinj (Value.object.inj (Option.some.inj hcost))
      exact .some ((JSON.sortByKey_perm _).symm.trans (haxes ▸ JSON.sortByKey_perm _))

/-- What is printed, read back and written in UTF-8 without loss. -/
def Fit (v : Value) : Prop := JSON.Printed v ∧ JSON.Units v.texts

theorem fit_number {text : JSString} (h : JSON.IsNumeral text) : Fit (.number text) := by
  refine ⟨.number h, List.forall_mem_singleton.mpr fun c hc => ?_⟩
  have hunit := JSON.isNumeralUnit_iff.mp (h.units c hc)
  omega

theorem fit_string {text : JSString} (h : ∀ c ∈ text, c < 0x10000) : Fit (.string text) :=
  ⟨.string text, List.forall_mem_singleton.mpr h⟩

theorem fit_object {fields : List (JSString × Value)}
    (h : ∀ field ∈ fields, (∀ c ∈ field.1, c < 0x10000) ∧ Fit field.2)
    (hnodup : (fields.map Prod.fst).Nodup) : Fit (.object fields) := by
  refine ⟨JSON.printed_object_iff.mpr ⟨fun field hfield => (h field hfield).2.1, hnodup⟩, ?_⟩
  clear hnodup
  induction fields with
  | nil => nofun
  | cons field fields ih =>
    obtain ⟨hfield, hfields⟩ := List.forall_mem_cons.mp h
    exact List.forall_mem_cons.mpr
      ⟨hfield.1, JSON.units_append.mpr ⟨hfield.2.2, ih hfields⟩⟩

def Ascii (text : JSString) : Prop := ∀ c ∈ text, c < 0x80

structure EffectEntry.Valid (entry : EffectEntry) : Prop where
  at' : JSON.IsNumeral entry.at'
  capability : Ascii entry.capability
  phase : Ascii entry.phase
  tokens : ∀ token ∈ [entry.effectId, entry.target, entry.digest, entry.error],
    ∀ text ∈ token, Ascii text
  cost : ∀ cost ∈ entry.cost, ∀ axis ∈ cost.entries, Ascii axis.1 ∧ JSON.IsNumeral axis.2

theorem Ascii.fit {text : JSString} (h : Ascii text) : Fit (.string text) :=
  fit_string fun c hc => (h c hc).trans (by decide)

theorem EffectEntry.Valid.fit {entry : EffectEntry} (h : entry.Valid) :
    Fit (.object (present entry.fields)) := by
  have htoken {token : Option JSString} (htoken : ∀ text ∈ token, Ascii text) :
      ∀ v ∈ token.map Value.string, Fit v := by
    rintro v hv
    obtain ⟨text, htext, rfl⟩ := Option.mem_map.mp hv
    exact (htoken text htext).fit
  have hcost : ∀ v ∈ entry.cost.map (fun cost => Value.object
      ((JSON.sortByKey cost.entries).map fun axis => (axis.1, .number axis.2))), Fit v := by
    rintro v hv
    obtain ⟨cost, hcost, rfl⟩ := Option.mem_map.mp hv
    refine fit_object (List.forall_mem_map.mpr fun axis haxis => ?_) ?_
    · have haxis := h.cost cost hcost axis (JSON.mem_sortByKey_iff.mp haxis)
      exact ⟨fun c hc => (haxis.1 c hc).trans (by decide), fit_number haxis.2⟩
    · rw [List.map_map]
      exact JSON.nodup_keys_sortByKey_iff.mpr cost.nodup
  have hfields : ∀ field ∈ entry.fields, ∀ v ∈ field.2, Fit v := by
    have htokens := h.tokens
    simp only [List.forall_mem_cons] at htokens
    simp only [EffectEntry.fields, List.forall_mem_cons]
    refine ⟨?_, ?_, htoken htokens.1, ?_, ?_, htoken htokens.2.1, hcost, htoken htokens.2.2.1,
      htoken htokens.2.2.2.1, nofun⟩
    · rintro _ ⟨⟩
      exact fit_number (JSON.isNumeral_decimal _)
    · rintro _ ⟨⟩
      exact fit_number h.at'
    · rintro _ ⟨⟩
      exact h.capability.fit
    · rintro _ ⟨⟩
      exact h.phase.fit
  refine fit_object (fun field hfield => ?_)
    ((names_present_sublist entry.fields).nodup (names_fields entry).1)
  have hmem := mem_present.mp hfield
  exact ⟨(names_fields entry).2 _ (List.mem_map_of_mem hmem), hfields _ hmem _ rfl⟩

theorem EffectEntry.Valid.agrees {entry entry' : EffectEntry} (h : entry.Valid)
    (h' : entry'.Valid) (heq : canonicalEntry entry = canonicalEntry entry') :
    entry.Agrees entry' := by
  rw [canonicalEntry_eq, canonicalEntry_eq] at heq
  have hpresent := Value.object.inj (h.fit.1.stringify_injective h'.fit.1 heq)
  exact agrees_of_fields (present_injective rfl (names_fields entry).1 hpresent)

section Chain
variable {sha256 : List (Fin 256) → List (Fin 256)}

theorem ascii_of_validCapabilityId {id : JSString} (h : validCapabilityId id) : Ascii id := by
  have hsegments (separated : Bool) (id : JSString) (h : Tools.capabilitySegments separated id) :
      Ascii id := by
    induction id generalizing separated with
    | nil => nofun
    | cons c rest ih =>
      rw [Tools.capabilitySegments] at h
      split_ifs at h with hc
      · refine List.forall_mem_cons.mpr ⟨?_, ih _ h⟩
        simp only [isLower, isDigit, Bool.or_eq_true, decide_eq_true_eq] at hc
        omega
      · rw [Bool.and_eq_true, Bool.and_eq_true] at h
        refine List.forall_mem_cons.mpr ⟨?_, ih _ h.2⟩
        exact (by decide : ∀ c ∈ js "._-", c < 0x80) c (List.contains_iff_mem.mp h.1.2)
  cases id with
  | nil => cases h
  | cons c rest =>
    rw [validCapabilityId, Bool.and_eq_true] at h
    refine List.forall_mem_cons.mpr ⟨?_, hsegments _ _ h.2⟩
    have hc := of_decide_eq_true h.1
    omega

theorem ascii_of_printableToken {n : ℕ} {token : JSString} (h : printableToken n token) :
    Ascii token := by
  rw [printableToken, Bool.and_eq_true] at h
  intro c hc
  have hunit := of_decide_eq_true (List.all_eq_true.mp h.2 c hc)
  omega

theorem ascii_of_validDigest {digest : JSString} (h : validDigest digest) : Ascii digest := by
  rw [validDigest, Bool.and_eq_true] at h
  intro c hc
  have hunit := List.all_eq_true.mp h.2 c hc
  simp only [isDigit, Bool.or_eq_true, decide_eq_true_eq] at hunit
  omega

theorem ascii_of_validErrorCode {code : JSString} (h : validErrorCode code) : Ascii code := by
  cases code with
  | nil => cases h
  | cons c rest =>
    simp only [validErrorCode, isLower, isDigit, Bool.and_eq_true, decide_eq_true_eq,
      List.all_eq_true, Bool.or_eq_true, List.contains_iff_mem] at h
    refine List.forall_mem_cons.mpr ⟨by omega, fun d hd => ?_⟩
    rcases h.2 d hd with hd | hd
    · omega
    · exact (by decide : ∀ c ∈ js "_.-", c < 0x80) d hd

theorem isNumeral_of_isCount {text : JSString} (h : isCount text) : JSON.IsNumeral text := by
  unfold isCount at h
  match hread : JSON.readNumeral text with
  | none =>
    rw [hread] at h
    cases h
  | some (numeral, rest) =>
    rw [hread, Option.any_some, Bool.and_eq_true, List.isEmpty_iff] at h
    exact ⟨numeral, hread.trans (h.2 ▸ rfl)⟩

theorem entry_eq_ok {ledger : RequestLedger} {input : EffectEntryInput} {at' : JSString}
    {entry : EffectEntry} (h : ledger.entry input at' = .ok entry) :
    ledger.sealResult = none ∧ entry.seq = ledger.items.length ∧ entry.Valid := by
  have htoken {check : JSString → Bool} (hcheck : ∀ text, check text → Ascii text)
      {token : Option JSString} (h : token.all check) : ∀ text ∈ token, Ascii text := by
    rintro text rfl
    exact hcheck text h
  have hphases : ∀ phase ∈ effectPhases, ∀ c ∈ phase, c < 0x80 := by decide
  unfold RequestLedger.entry at h
  dsimp only at h
  split_ifs at h with hsealed hfull hcapability hphase hid htarget hdigest herror hclock
  split at h
  · cases h
  · next hcost =>
    obtain rfl := Except.ok.inj h
    refine ⟨Option.not_isSome_iff_eq_none.mp hsealed, rfl, isNumeral_of_isCount hclock,
      ascii_of_validCapabilityId hcapability, ?_, ?_, ?_⟩
    · exact hphases _ hphase
    · simp only [List.forall_mem_cons]
      exact ⟨htoken (fun _ => ascii_of_printableToken) hid,
        htoken (fun _ => ascii_of_printableToken) htarget,
        htoken (fun _ => ascii_of_validDigest) hdigest,
        htoken (fun _ => ascii_of_validErrorCode) herror, nofun⟩
    · intro cost hmem axis haxis
      have hnone := Option.bind_eq_none_iff.mp hcost cost hmem
      unfold costError at hnone
      split_ifs at hnone
      have hvalid := List.find?_eq_none.mp (Option.map_eq_none_iff.mp hnone) axis haxis
      rw [Bool.not_not_eq, Bool.and_eq_true] at hvalid
      exact ⟨ascii_of_validCapabilityId hvalid.1, isNumeral_of_isCount hvalid.2⟩

structure Sound (sha256 : List (Fin 256) → List (Fin 256)) (options : CreateRequestLedgerOptions)
    (ledger : RequestLedger) : Prop where
  route : ledger.toCreateRequestLedgerOptions =
    { options with method := toUpperCase options.method }
  numbered : ledger.items.map EffectEntry.seq = List.range ledger.items.length
  valid : ∀ entry ∈ ledger.items, entry.Valid
  sealed : ∀ result ∈ ledger.sealResult, result = ledger.sealOnce sha256

theorem Sound.step {options : CreateRequestLedgerOptions} {ledger : RequestLedger}
    (h : Sound sha256 options ledger) (call : Call) :
    Sound sha256 options (ledger.step sha256 call) := by
  cases call with
  | append input at' =>
    change Sound sha256 options (ledger.append input at').2
    unfold RequestLedger.append
    split
    · next entry hentry =>
      obtain ⟨hopen, hseq, hvalid⟩ := entry_eq_ok hentry
      refine ⟨h.route, ?_, ?_, ?_⟩
      · rw [List.map_append, h.numbered, List.length_append, List.length_singleton,
          List.range_succ, ← hseq]
        rfl
      · exact List.forall_mem_append.mpr ⟨h.valid, List.forall_mem_singleton.mpr hvalid⟩
      · rw [hopen]
        nofun
    · exact h
  | «seal» =>
    refine ⟨h.route, h.numbered, h.valid, ?_⟩
    rintro result ⟨⟩
    cases hsealed : ledger.sealResult with
    | none => rfl
    | some result => exact h.sealed result hsealed

theorem Sound.run {options : CreateRequestLedgerOptions} {ledger : RequestLedger}
    (h : Sound sha256 options ledger) (calls : List Call) :
    Sound sha256 options (ledger.run sha256 calls) := by
  induction calls generalizing ledger with
  | nil => exact h
  | cons call calls ih => exact ih (h.step call)

theorem sound_create {options : CreateRequestLedgerOptions} {ledger : RequestLedger}
    (h : createRequestLedger options = .ok ledger) (hpath : ∀ c ∈ options.path, c < 0x10000)
    (calls : List Call) : let l := ledger.run sha256 calls
    Sound sha256 options l ∧ Fit (header l) := by
  have hitems {texts : List JSString} (h : ∀ text ∈ texts, Ascii text) :
      Fit (.array (texts.map .string)) := by
    refine ⟨JSON.printed_array_iff.mpr (List.forall_mem_map.mpr fun text _ => .string text), ?_⟩
    induction texts with
    | nil => rintro _ ⟨⟩
    | cons text texts ih =>
      obtain ⟨htext, htexts⟩ := List.forall_mem_cons.mp h
      exact List.forall_mem_cons.mpr ⟨fun c hc => (htext c hc).trans (by decide), ih htexts⟩
  unfold createRequestLedger at h
  split_ifs at h with htoken hmax
  split at h
  · cases h
  · next hnone =>
    obtain rfl := Except.ok.inj h
    have hsound : Sound sha256 options { options with
        method := toUpperCase options.method, items := [], sealResult := none } :=
      ⟨rfl, rfl, by rintro _ ⟨⟩, by rintro _ ⟨⟩⟩
    have hrun := hsound.run calls
    have hmethod : Ascii (toUpperCase options.method) := List.forall_mem_map.mpr fun c hc => by
      have hunit := ascii_of_printableToken htoken.1 c hc
      split_ifs <;> omega
    have hdeclared : ∀ id ∈ options.declared, Ascii id := fun id hid =>
      ascii_of_validCapabilityId (by simpa using List.find?_eq_none.mp hnone id hid)
    refine ⟨hrun, ?_⟩
    rw [header, hrun.route]
    refine fit_object ?_ (by decide : [js "method", js "path", js "declared"].Nodup)
    simp only [List.forall_mem_cons]
    exact ⟨⟨by decide, hmethod.fit⟩, ⟨by decide, fit_string hpath⟩,
      ⟨by decide, hitems fun id hid => hdeclared id (List.mem_mergeSort.mp hid)⟩, by rintro _ ⟨⟩⟩

end Chain

end Nifra.Ledger
