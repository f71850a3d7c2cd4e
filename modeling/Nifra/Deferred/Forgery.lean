import Nifra.Text.JSONUtf8
import Nifra.Text.JSONValue

/-! # Page data in transit

The data of a page crosses as JSON: a deferred value as a placeholder with its number, a date as a
tagged text. Both sides know them by their shape, at any depth.
-/

namespace Nifra.Deferred

open JSON

/-- Page data with promises of type `P`. A date is the text that it is made of. -/
inductive Data (P : Type)
  | null
  | bool (b : Bool)
  | number (text : JSString)
  | string (s : JSString)
  | array (items : List (Data P))
  | object (fields : List (JSString × Data P))
  | date (text : JSString)
  | promise (p : P)
  deriving Repr

variable {P : Type}

mutual

def ofValue : Value → Data P
  | .null => .null
  | .bool b => .bool b
  | .number text => .number text
  | .string s => .string s
  | .array items => .array (ofItems items)
  | .object fields => .object (ofFields fields)

def ofItems : List Value → List (Data P)
  | [] => []
  | item :: items => ofValue item :: ofItems items

def ofFields : List (JSString × Value) → List (JSString × Data P)
  | [] => []
  | (name, value) :: fields => (name, ofValue value) :: ofFields fields

end

def deferredKey : JSString := js "__nifra_deferred"

def dateTag : JSString := js "__nifra_date"

/-- `{ __nifra_deferred: id }` -/
def placeholder (id : ℕ) : Data P := .object [(deferredKey, .number (decimal id))]

def isDeferred (fields : List (JSString × Data P)) : Bool :=
  match fields.lookup deferredKey with
  | some (.bool true) => true
  | _ => false

mutual

/-- The component's side of a value and the client's, with the promises put off so far. A value
without a marker is itself on both sides. -/
def split (idOffset : ℕ) : Data P → List (ℕ × Option (Data P)) →
    (Data P × Data P) × List (ℕ × Option (Data P))
  | .object fields, deferred =>
    if isDeferred fields then
      let id := idOffset + deferred.length
      let promise := fields.lookup (js "promise")
      ((.object ([(deferredKey, .bool true), (js "id", .number (decimal id))] ++
          promise.toList.map fun p => (js "promise", p)), placeholder id),
        deferred ++ [(id, promise)])
    else
      let (sides, deferred) := splitFields idOffset fields deferred
      ((.object sides.1, .object sides.2), deferred)
  | .array items, deferred =>
    let (sides, deferred) := splitItems idOffset items deferred
    ((.array sides.1, .array sides.2), deferred)
  | value, deferred => ((value, value), deferred)

def splitItems (idOffset : ℕ) : List (Data P) → List (ℕ × Option (Data P)) →
    (List (Data P) × List (Data P)) × List (ℕ × Option (Data P))
  | [], deferred => (([], []), deferred)
  | item :: items, deferred =>
    let (side, deferred) := split idOffset item deferred
    let (sides, deferred) := splitItems idOffset items deferred
    ((side.1 :: sides.1, side.2 :: sides.2), deferred)

def splitFields (idOffset : ℕ) : List (JSString × Data P) → List (ℕ × Option (Data P)) →
    (List (JSString × Data P) × List (JSString × Data P)) × List (ℕ × Option (Data P))
  | [], deferred => (([], []), deferred)
  | (name, value) :: fields, deferred =>
    let (side, deferred) := split idOffset value deferred
    let (sides, deferred) := splitFields idOffset fields deferred
    (((name, side.1) :: sides.1, (name, side.2) :: sides.2), deferred)

end

structure Prepared (P : Type) where
  forComponent : Data P
  forClient : Data P
  deferred : List (ℕ × Option (Data P))

/-- `isDeferredFree` tells whether an output guard settled the data without a marker. -/
def prepareDeferred (isDeferredFree : Bool) (data : Data P) (idOffset : ℕ) : Prepared P :=
  if isDeferredFree then ⟨data, data, []⟩
  else
    let (sides, deferred) := split idOffset data []
    ⟨sides.1, sides.2, deferred⟩

mutual

/-- What `JSON.stringify` prints: a date by the `toJSON` of `wireDate`, a promise as an object
without properties. -/
def toJSON : Data P → Value
  | .null => .null
  | .bool b => .bool b
  | .number text => .number text
  | .string s => .string s
  | .array items => .array (toJSONItems items)
  | .object fields => .object (toJSONFields fields)
  | .date text => .object [(dateTag, .string text)]
  | .promise _ => .object []

def toJSONItems : List (Data P) → List Value
  | [] => []
  | item :: items => toJSON item :: toJSONItems items

def toJSONFields : List (JSString × Data P) → List (JSString × Value)
  | [] => []
  | (name, value) :: fields => (name, toJSON value) :: toJSONFields fields

end

/-- `plainJsonCodec.encode` -/
def encode (data : Data P) : JSString := (toJSON data).stringify

/-- What `ndjsonStream` sends at once, before any promise settles. -/
def firstLine (forClient : Data P) : JSString := encode forClient ++ js "\n"

def reviveObject : List (JSString × Data P) → Data P
  | [(name, .string tagged)] =>
    if name = dateTag then .date tagged else .object [(name, .string tagged)]
  | fields => .object fields

mutual

/-- The reviver of `JSON.parse`, leaves first. -/
def revive : Value → Data P
  | .null => .null
  | .bool b => .bool b
  | .number text => .number text
  | .string s => .string s
  | .array items => .array (reviveItems items)
  | .object fields => reviveObject (reviveFields fields)

def reviveItems : List Value → List (Data P)
  | [] => []
  | item :: items => revive item :: reviveItems items

def reviveFields : List (JSString × Value) → List (JSString × Data P)
  | [] => []
  | (name, value) :: fields => (name, revive value) :: reviveFields fields

end

def parsePageData (text : JSString) : Option (Data P) :=
  if js "\"" ++ dateTag ++ js "\"" <:+: text then (parse text).map revive
  else (parse text).map ofValue

/-- A marker whose promise is held open in `pending` under its number. -/
def marker (id : JSString) : Data JSString :=
  .object [(deferredKey, .bool true), (js "id", .number id), (js "promise", .promise id)]

def placeholderId (fields : List (JSString × Data P)) : Option JSString :=
  match fields.lookup deferredKey with
  | some (.number id) => some id
  | _ => none

mutual

/-- The value with its markers, and the numbers that are held open. A number that comes again stands
for the promise of the first. -/
def walk : Data JSString → List JSString → Data JSString × List JSString
  | .object fields, pending =>
    match placeholderId fields with
    | some id => (marker id, if id ∈ pending then pending else pending ++ [id])
    | none =>
      let (fields, pending) := walkFields fields pending
      (.object fields, pending)
  | .array items, pending =>
    let (items, pending) := walkItems items pending
    (.array items, pending)
  | value, pending => (value, pending)

def walkItems : List (Data JSString) → List JSString → List (Data JSString) × List JSString
  | [], pending => ([], pending)
  | item :: items, pending =>
    let (item, pending) := walk item pending
    let (items, pending) := walkItems items pending
    (item :: items, pending)

def walkFields : List (JSString × Data JSString) → List JSString →
    List (JSString × Data JSString) × List JSString
  | [], pending => ([], pending)
  | (name, value) :: fields, pending =>
    let (value, pending) := walk value pending
    let (fields, pending) := walkFields fields pending
    ((name, value) :: fields, pending)

end

def markersFromPlaceholders (data : Data JSString) : Data JSString × List JSString := walk data []

/-- A line at the front of a body, up to its end if nothing ends the line. -/
def readLine (body : JSString) : Option JSString :=
  if 10 ∈ body then some (body.takeWhile fun c => decide (c ≠ 10))
  else if body = [] then none else some body

def parseNdjsonData (body : JSString) : Option (Data JSString × List JSString) :=
  match readLine body with
  | none => some (markersFromPlaceholders .null)
  | some line => (parsePageData line).map markersFromPlaceholders

/-! ## Data that looks like a tag

Nothing escapes a tag. Plain JSON comes through as it is exactly when none of its objects, at any
depth, has the shape of one.
-/

open JSON

variable {P Q : Type}

mutual

def everyObject (p : List (JSString × Value) → Bool) : Value → Bool
  | .array items => everyObjectOfItems p items
  | .object fields => p fields && everyObjectOfFields p fields
  | _ => true

def everyObjectOfItems (p : List (JSString × Value) → Bool) : List Value → Bool
  | [] => true
  | item :: items => everyObject p item && everyObjectOfItems p items

def everyObjectOfFields (p : List (JSString × Value) → Bool) : List (JSString × Value) → Bool
  | [] => true
  | (_, value) :: fields => everyObject p value && everyObjectOfFields p fields

end

/-- The shape of a date: one property, `__nifra_date`, and a string in it. -/
def isDateShape : List (JSString × Value) → Bool
  | [(name, .string _)] => decide (name = dateTag)
  | _ => false

/-- The shape of a placeholder: a number in `__nifra_deferred`. -/
def isPlaceholderShape (fields : List (JSString × Value)) : Bool :=
  match fields.lookup deferredKey with
  | some (.number _) => true
  | _ => false

/-- The shape of `defer()`: `true` in `__nifra_deferred`. -/
def isMarkerShape (fields : List (JSString × Value)) : Bool :=
  match fields.lookup deferredKey with
  | some (.bool true) => true
  | _ => false

def DateFree (v : Value) : Prop := everyObject (fun fields => !isDateShape fields) v = true

def PlaceholderFree (v : Value) : Prop :=
  everyObject (fun fields => !isPlaceholderShape fields) v = true

def MarkerFree (v : Value) : Prop := everyObject (fun fields => !isMarkerShape fields) v = true

theorem lookup_ofFields (fields : List (JSString × Value)) (name : JSString) :
    (ofFields fields : List (JSString × Data P)).lookup name =
      (fields.lookup name).map ofValue := by
  induction fields with
  | nil => rfl
  | cons field fields ih =>
    obtain ⟨key, value⟩ := field
    simp only [ofFields, List.lookup_cons]
    cases name == key with
    | true => rfl
    | false => exact ih

mutual

theorem toJSON_ofValue (v : Value) : toJSON (ofValue v : Data P) = v := by
  match v with
  | .null => rfl
  | .bool b => rfl
  | .number text => rfl
  | .string s => rfl
  | .array items => rw [ofValue, toJSON, toJSONItems_ofItems]
  | .object fields => rw [ofValue, toJSON, toJSONFields_ofFields]

theorem toJSONItems_ofItems (items : List Value) :
    toJSONItems (ofItems items : List (Data P)) = items := by
  match items with
  | [] => rfl
  | item :: items => rw [ofItems, toJSONItems, toJSON_ofValue, toJSONItems_ofItems]

theorem toJSONFields_ofFields (fields : List (JSString × Value)) :
    toJSONFields (ofFields fields : List (JSString × Data P)) = fields := by
  match fields with
  | [] => rfl
  | (name, value) :: fields =>
    rw [ofFields, toJSONFields, toJSON_ofValue, toJSONFields_ofFields]

end

theorem ofFields_injective {fields fields' : List (JSString × Value)}
    (h : (ofFields fields : List (JSString × Data P)) = ofFields fields') : fields = fields' := by
  rw [← toJSONFields_ofFields (P := P) fields, h, toJSONFields_ofFields]

theorem reviveObject_eq_iff {fields : List (JSString × Data P)} {w : Value} :
    reviveObject fields = ofValue w ↔
      ∃ plain, w = .object plain ∧ fields = ofFields plain ∧ isDateShape plain = false := by
  constructor
  · intro h
    unfold reviveObject at h
    split at h
    · rename_i name tagged
      split_ifs at h with hname
      · cases w <;> cases h
      · cases w with
        | object plain =>
          have hplain : ofFields plain = ofFields [(name, .string tagged)] :=
            (Data.object.inj h).symm
          rw [ofFields_injective hplain]
          exact ⟨_, rfl, rfl, decide_eq_false hname⟩
        | _ => cases h
    · rename_i hshape
      cases w with
      | object plain =>
        have hplain := Data.object.inj h
        refine ⟨plain, rfl, hplain, ?_⟩
        unfold isDateShape
        split
        · rename_i name tagged
          exact (hshape name tagged hplain).elim
        · rfl
      | _ => cases h
  · rintro ⟨plain, rfl, rfl, hshape⟩
    unfold reviveObject
    split
    · rename_i name tagged hfields
      have hplain : ofFields plain = ofFields [(name, .string tagged)] := hfields
      rw [ofFields_injective hplain] at hshape ⊢
      rw [if_neg (of_decide_eq_false hshape)]
      rfl
    · rfl

mutual

theorem revive_eq_iff (v w : Value) :
    (revive v : Data P) = ofValue w ↔ v = w ∧ DateFree w := by
  match v with
  | .null | .bool _ | .number _ | .string _ =>
    cases w <;> simp [revive, ofValue, DateFree, everyObject]
  | .array items =>
    cases w with
    | array items' => simp [revive, ofValue, DateFree, everyObject, reviveItems_eq_iff items items']
    | _ => simp [revive, ofValue]
  | .object fields =>
    rw [revive, reviveObject_eq_iff]
    constructor
    · rintro ⟨plain, rfl, hfields, hshape⟩
      obtain ⟨rfl, hfree⟩ := (reviveFields_eq_iff fields plain).mp hfields
      exact ⟨rfl, by simp [DateFree, everyObject, hshape, hfree]⟩
    · rintro ⟨rfl, hfree⟩
      simp only [DateFree, everyObject, Bool.and_eq_true, Bool.not_eq_true'] at hfree
      exact ⟨fields, rfl, (reviveFields_eq_iff fields fields).mpr ⟨rfl, hfree.2⟩, hfree.1⟩

theorem reviveItems_eq_iff (items items' : List Value) :
    (reviveItems items : List (Data P)) = ofItems items' ↔
      items = items' ∧ everyObjectOfItems (fun fields => !isDateShape fields) items' = true := by
  match items, items' with
  | [], [] => simp [reviveItems, ofItems, everyObjectOfItems]
  | [], _ :: _ => simp [reviveItems, ofItems]
  | _ :: _, [] => simp [reviveItems, ofItems]
  | item :: items, item' :: items' =>
    simp only [reviveItems, ofItems, List.cons.injEq, everyObjectOfItems, Bool.and_eq_true,
      revive_eq_iff item item', reviveItems_eq_iff items items', DateFree]
    tauto

theorem reviveFields_eq_iff (fields fields' : List (JSString × Value)) :
    (reviveFields fields : List (JSString × Data P)) = ofFields fields' ↔
      fields = fields' ∧
        everyObjectOfFields (fun fields => !isDateShape fields) fields' = true := by
  match fields, fields' with
  | [], [] => simp [reviveFields, ofFields, everyObjectOfFields]
  | [], _ :: _ => simp [reviveFields, ofFields]
  | _ :: _, [] => simp [reviveFields, ofFields]
  | (name, value) :: fields, (name', value') :: fields' =>
    simp only [reviveFields, ofFields, List.cons.injEq, Prod.mk.injEq, everyObjectOfFields,
      Bool.and_eq_true, revive_eq_iff value value', reviveFields_eq_iff fields fields', DateFree]
    tauto

end

theorem infix_of_isDateShape {fields : List (JSString × Value)} (h : isDateShape fields = true) :
    ofString dateTag <:+: (Value.object fields).stringify := by
  unfold isDateShape at h
  split at h
  · rename_i name tagged
    rw [of_decide_eq_true h]
    exact ⟨js "\x7b", _, List.append_assoc _ _ _⟩
  · cases h

mutual

theorem dateFree_or_contained (v : Value) : DateFree v ∨ ofString dateTag <:+: v.stringify := by
  match v with
  | .null | .bool _ | .number _ | .string _ => exact Or.inl rfl
  | .array [] => exact Or.inl rfl
  | .array (item :: items) =>
    rw [DateFree, everyObject, everyObjectOfItems, Value.stringify, Bool.and_eq_true]
    rcases dateFree_or_contained item with h | h
    · rcases dateFreeItems_or_infix items with hs | hs
      · exact Or.inl ⟨h, hs⟩
      · exact Or.inr (hs.trans (List.suffix_append _ _).isInfix)
    · exact Or.inr (h.trans (List.infix_append _ _ _))
  | .object [] => exact Or.inl rfl
  | .object ((name, value) :: fields) =>
    cases hshape : isDateShape ((name, value) :: fields) with
    | true => exact Or.inr (infix_of_isDateShape hshape)
    | false =>
      rw [DateFree, everyObject, everyObjectOfFields, Value.stringify, hshape, Bool.not_false,
        Bool.true_and, Bool.and_eq_true]
      rcases dateFree_or_contained value with h | h
      · rcases dateFreeFields_or_infix fields with hs | hs
        · exact Or.inl ⟨h, hs⟩
        · exact Or.inr (hs.trans (List.suffix_append _ _).isInfix)
      · exact Or.inr (h.trans (List.infix_append _ _ _))

theorem dateFreeItems_or_infix (items : List Value) :
    everyObjectOfItems (fun fields => !isDateShape fields) items = true ∨
      ofString dateTag <:+: Value.stringifyItems items := by
  match items with
  | [] => exact Or.inl rfl
  | item :: items =>
    rw [everyObjectOfItems, Value.stringifyItems, Bool.and_eq_true]
    rcases dateFree_or_contained item with h | h
    · rcases dateFreeItems_or_infix items with hs | hs
      · exact Or.inl ⟨h, hs⟩
      · exact Or.inr (hs.trans (List.suffix_append _ _).isInfix)
    · exact Or.inr (h.trans (List.infix_append _ _ _))

theorem dateFreeFields_or_infix (fields : List (JSString × Value)) :
    everyObjectOfFields (fun fields => !isDateShape fields) fields = true ∨
      ofString dateTag <:+: Value.stringifyFields fields := by
  match fields with
  | [] => exact Or.inl rfl
  | (name, value) :: fields =>
    rw [everyObjectOfFields, Value.stringifyFields, Bool.and_eq_true]
    rcases dateFree_or_contained value with h | h
    · rcases dateFreeFields_or_infix fields with hs | hs
      · exact Or.inl ⟨h, hs⟩
      · exact Or.inr (hs.trans (List.suffix_append _ _).isInfix)
    · exact Or.inr (h.trans (List.infix_append _ _ _))

end

theorem placeholderId_ofFields (fields : List (JSString × Value)) :
    (placeholderId (ofFields fields : List (JSString × Data P))).isSome =
      isPlaceholderShape fields := by
  unfold placeholderId isPlaceholderShape
  rw [lookup_ofFields]
  cases fields.lookup deferredKey with
  | none => rfl
  | some value => cases value <;> rfl

theorem marker_ne_ofValue (id : JSString) (w : Value) : marker id ≠ ofValue w := by
  intro h
  have hfields := congrArg toJSON h
  rw [toJSON_ofValue] at hfields
  subst hfields
  cases h

theorem walk_object {fields : List (JSString × Data JSString)} (h : placeholderId fields = none)
    (pending : List JSString) : walk (.object fields) pending =
      (.object (walkFields fields pending).1, (walkFields fields pending).2) := by
  rw [walk, h]

mutual

theorem walk_ofValue {v : Value} (h : PlaceholderFree v) (pending : List JSString) :
    walk (ofValue v) pending = (ofValue v, pending) := by
  match v with
  | .null | .bool _ | .number _ | .string _ => rfl
  | .array items => rw [ofValue, walk, walkItems_ofItems h]
  | .object fields =>
    simp only [PlaceholderFree, everyObject, Bool.and_eq_true, Bool.not_eq_true'] at h
    have hnone : placeholderId (ofFields fields : List (JSString × Data JSString)) = none := by
      rw [← Option.not_isSome_iff_eq_none, placeholderId_ofFields, h.1]
      exact Bool.false_ne_true
    rw [ofValue, walk_object hnone, walkFields_ofFields h.2]

theorem walkItems_ofItems {items : List Value}
    (h : everyObjectOfItems (fun fields => !isPlaceholderShape fields) items = true)
    (pending : List JSString) : walkItems (ofItems items) pending = (ofItems items, pending) := by
  match items with
  | [] => rfl
  | item :: items =>
    rw [everyObjectOfItems, Bool.and_eq_true] at h
    simp only [ofItems, walkItems, walk_ofValue h.1, walkItems_ofItems h.2]

theorem walkFields_ofFields {fields : List (JSString × Value)}
    (h : everyObjectOfFields (fun fields => !isPlaceholderShape fields) fields = true)
    (pending : List JSString) :
    walkFields (ofFields fields) pending = (ofFields fields, pending) := by
  match fields with
  | [] => rfl
  | (name, value) :: fields =>
    rw [everyObjectOfFields, Bool.and_eq_true] at h
    simp only [ofFields, walkFields, walk_ofValue h.1, walkFields_ofFields h.2]

end

mutual

theorem of_walk_eq {d : Data JSString} {pending : List JSString} {w : Value}
    (h : (walk d pending).1 = ofValue w) : d = ofValue w ∧ PlaceholderFree w := by
  cases d with
  | array items =>
    cases w with
    | array items' =>
      rw [walk, ofValue, Data.array.injEq] at h
      obtain ⟨hitems, hfree⟩ := of_walkItems_eq h
      exact ⟨congrArg Data.array hitems, hfree⟩
    | _ => cases h
  | object fields =>
    cases hid : placeholderId fields with
    | some id =>
      rw [walk, hid] at h
      exact (marker_ne_ofValue id w h).elim
    | none =>
      rw [walk_object hid] at h
      cases w with
      | object fields' =>
        rw [ofValue, Data.object.injEq] at h
        obtain ⟨rfl, hfree⟩ := of_walkFields_eq h
        have hshape := placeholderId_ofFields (P := JSString) fields'
        rw [hid] at hshape
        exact ⟨rfl, by simp [PlaceholderFree, everyObject, ← hshape, hfree]⟩
      | _ => cases h
  | _ => cases w <;> first | exact ⟨h, rfl⟩ | cases h

theorem of_walkItems_eq {items : List (Data JSString)} {pending : List JSString}
    {items' : List Value} (h : (walkItems items pending).1 = ofItems items') :
    items = ofItems items' ∧
      everyObjectOfItems (fun fields => !isPlaceholderShape fields) items' = true := by
  match items, items' with
  | [], [] => exact ⟨rfl, rfl⟩
  | [], _ :: _ => cases h
  | _ :: _, [] => cases h
  | item :: items, item' :: items' =>
    rw [walkItems, ofItems, List.cons.injEq] at h
    obtain ⟨hitem, hfree⟩ := of_walk_eq h.1
    obtain ⟨hitems, hfrees⟩ := of_walkItems_eq h.2
    rw [ofItems, everyObjectOfItems, Bool.and_eq_true]
    exact ⟨congrArg₂ List.cons hitem hitems, hfree, hfrees⟩

theorem of_walkFields_eq {fields : List (JSString × Data JSString)} {pending : List JSString}
    {fields' : List (JSString × Value)} (h : (walkFields fields pending).1 = ofFields fields') :
    fields = ofFields fields' ∧
      everyObjectOfFields (fun fields => !isPlaceholderShape fields) fields' = true := by
  match fields, fields' with
  | [], [] => exact ⟨rfl, rfl⟩
  | [], _ :: _ => cases h
  | _ :: _, [] => cases h
  | (name, value) :: fields, (name', value') :: fields' =>
    rw [walkFields, ofFields, List.cons.injEq, Prod.mk.injEq] at h
    obtain ⟨rfl, hvalue⟩ := h.1
    obtain ⟨rfl, hfree⟩ := of_walk_eq hvalue
    obtain ⟨rfl, hfrees⟩ := of_walkFields_eq h.2
    rw [everyObjectOfFields, Bool.and_eq_true]
    exact ⟨rfl, hfree, hfrees⟩

end

theorem isDeferred_ofFields (fields : List (JSString × Value)) :
    isDeferred (ofFields fields : List (JSString × Data P)) = isMarkerShape fields := by
  unfold isDeferred isMarkerShape
  rw [lookup_ofFields]
  cases fields.lookup deferredKey with
  | none => rfl
  | some value =>
    cases value with
    | bool b => cases b <;> rfl
    | _ => rfl

theorem printed_placeholder (id : ℕ) : Printed (.object [(deferredKey, .number (decimal id))]) :=
  .object (.cons (.number (isNumeral_decimal id)) .nil) (List.nodup_singleton _)

theorem not_placeholderFree_placeholder (id : ℕ) :
    ¬ PlaceholderFree (.object [(deferredKey, .number (decimal id))]) := by
  simp [PlaceholderFree, everyObject, isPlaceholderShape]

mutual

/-- The client's side of plain JSON: the value itself, or one with a placeholder for each part that
looks like a marker. -/
theorem exists_split {v : Value} (h : Printed v) (idOffset : ℕ)
    (deferred : List (ℕ × Option (Data P))) :
    ∃ c, (split idOffset (ofValue v) deferred).1.2 = ofValue c ∧ Printed c ∧
      (MarkerFree v ∧ c = v ∨ ¬ MarkerFree v ∧ ¬ PlaceholderFree c) := by
  match h with
  | .null => exact ⟨.null, rfl, .null, Or.inl ⟨rfl, rfl⟩⟩
  | .bool b => exact ⟨.bool b, rfl, .bool b, Or.inl ⟨rfl, rfl⟩⟩
  | @Printed.number text h => exact ⟨.number text, rfl, .number h, Or.inl ⟨rfl, rfl⟩⟩
  | .string s => exact ⟨.string s, rfl, .string s, Or.inl ⟨rfl, rfl⟩⟩
  | @Printed.array items h =>
    obtain ⟨cs, hsplit, hprinted, hcs⟩ := exists_splitItems h idOffset deferred
    refine ⟨.array cs, ?_, .array hprinted, ?_⟩
    · rw [ofValue, split, ofValue, ← hsplit]
    · rcases hcs with ⟨hfree, rfl⟩ | ⟨hfree, hplaceholder⟩
      · exact Or.inl ⟨hfree, rfl⟩
      · exact Or.inr ⟨hfree, hplaceholder⟩
  | @Printed.object fields h hnodup =>
    rw [ofValue, split, isDeferred_ofFields]
    cases hshape : isMarkerShape fields with
    | true =>
      refine ⟨_, rfl, printed_placeholder _, Or.inr ⟨?_, not_placeholderFree_placeholder _⟩⟩
      simp [MarkerFree, everyObject, hshape]
    | false =>
      obtain ⟨cs, hsplit, hprinted, hnames, hcs⟩ := exists_splitFields h idOffset deferred
      refine ⟨.object cs, ?_, .object hprinted (by rwa [hnames]), ?_⟩
      · rw [ofValue, ← hsplit]
        rfl
      · rcases hcs with ⟨hfree, rfl⟩ | ⟨hfree, hplaceholder⟩
        · exact Or.inl ⟨by simp [MarkerFree, everyObject, hshape, hfree], rfl⟩
        · exact Or.inr ⟨by simp [MarkerFree, everyObject, hfree],
            by simp [PlaceholderFree, everyObject, hplaceholder]⟩

theorem exists_splitItems {items : List Value} (h : PrintedItems items) (idOffset : ℕ)
    (deferred : List (ℕ × Option (Data P))) :
    ∃ cs, (splitItems idOffset (ofItems items) deferred).1.2 = ofItems cs ∧ PrintedItems cs ∧
      (everyObjectOfItems (fun fields => !isMarkerShape fields) items = true ∧ cs = items ∨
        ¬ everyObjectOfItems (fun fields => !isMarkerShape fields) items = true ∧
          ¬ everyObjectOfItems (fun fields => !isPlaceholderShape fields) cs = true) := by
  match h with
  | .nil => exact ⟨[], rfl, .nil, Or.inl ⟨rfl, rfl⟩⟩
  | @PrintedItems.cons item items h hs =>
    obtain ⟨c, hsplit, hprinted, hc⟩ := exists_split h idOffset deferred
    obtain ⟨cs, hsplits, hprinteds, hcs⟩ :=
      exists_splitItems hs idOffset (split idOffset (ofValue item) deferred).2
    refine ⟨c :: cs, ?_, .cons hprinted hprinteds, ?_⟩
    · rw [ofItems, splitItems, ofItems, ← hsplit, ← hsplits]
    · rw [everyObjectOfItems, everyObjectOfItems, Bool.and_eq_true, Bool.and_eq_true]
      rcases hc with ⟨hfree, rfl⟩ | ⟨hfree, hplaceholder⟩
      · rcases hcs with ⟨hfrees, rfl⟩ | ⟨hfrees, hplaceholders⟩
        · exact Or.inl ⟨⟨hfree, hfrees⟩, rfl⟩
        · exact Or.inr ⟨fun h => hfrees h.2, fun h => hplaceholders h.2⟩
      · exact Or.inr ⟨fun h => hfree h.1, fun h => hplaceholder h.1⟩

theorem exists_splitFields {fields : List (JSString × Value)} (h : PrintedFields fields)
    (idOffset : ℕ) (deferred : List (ℕ × Option (Data P))) :
    ∃ cs, (splitFields idOffset (ofFields fields) deferred).1.2 = ofFields cs ∧
      PrintedFields cs ∧ cs.map Prod.fst = fields.map Prod.fst ∧
      (everyObjectOfFields (fun fields => !isMarkerShape fields) fields = true ∧ cs = fields ∨
        ¬ everyObjectOfFields (fun fields => !isMarkerShape fields) fields = true ∧
          ¬ everyObjectOfFields (fun fields => !isPlaceholderShape fields) cs = true) := by
  match h with
  | .nil => exact ⟨[], rfl, .nil, rfl, Or.inl ⟨rfl, rfl⟩⟩
  | @PrintedFields.cons name value fields h hs =>
    obtain ⟨c, hsplit, hprinted, hc⟩ := exists_split h idOffset deferred
    obtain ⟨cs, hsplits, hprinteds, hnames, hcs⟩ :=
      exists_splitFields hs idOffset (split idOffset (ofValue value) deferred).2
    refine ⟨(name, c) :: cs, ?_, .cons hprinted hprinteds, by simp [hnames], ?_⟩
    · rw [ofFields, splitFields, ofFields, ← hsplit, ← hsplits]
    · rw [everyObjectOfFields, everyObjectOfFields, Bool.and_eq_true, Bool.and_eq_true]
      rcases hc with ⟨hfree, rfl⟩ | ⟨hfree, hplaceholder⟩
      · rcases hcs with ⟨hfrees, rfl⟩ | ⟨hfrees, hplaceholders⟩
        · exact Or.inl ⟨⟨hfree, hfrees⟩, rfl⟩
        · exact Or.inr ⟨fun h => hfrees h.2, fun h => hplaceholders h.2⟩
      · exact Or.inr ⟨fun h => hfree h.1, fun h => hplaceholder h.1⟩

end

theorem parsePageData_encode {v : Value} (h : Printed v) :
    (parsePageData (encode (ofValue v : Data P)) : Option (Data Q)) = some (revive v) := by
  unfold parsePageData encode
  rw [toJSON_ofValue, h.parse_stringify]
  split_ifs with htag
  · rfl
  · have hfree := (dateFree_or_contained v).resolve_right htag
    rw [Option.map_some, (revive_eq_iff v v).mpr ⟨rfl, hfree⟩]

theorem readLine_firstLine {v : Value} (h : Printed v) :
    readLine (firstLine (ofValue v : Data P)) = some (encode (ofValue v : Data P)) := by
  have hline : ∀ c ∈ encode (ofValue v : Data P), c ≠ 10 := by
    intro c hc
    rw [encode, toJSON_ofValue] at hc
    have := h.le_of_mem hc
    omega
  have hend : js "\n" = [10] := rfl
  rw [readLine, firstLine, hend, if_pos (by simp),
    List.takeWhile_append_of_pos fun c hc => decide_eq_true (hline c hc)]
  simp

/-- Plain JSON comes out of the first line of a stream as it is, with nothing held open, exactly
when none of its objects looks like a date, a placeholder or, where the server looks for one, a
marker; it comes out of a page's text as it is exactly when none looks like a date. -/
theorem decoded_iff (P Q : Type) (isDeferredFree : Bool) (idOffset : ℕ) {v : Value}
    (h : Printed v) :
    (parseNdjsonData
        (firstLine (prepareDeferred isDeferredFree (ofValue v : Data P) idOffset).forClient) =
          some (ofValue v, []) ↔
      DateFree v ∧ PlaceholderFree v ∧ (isDeferredFree = true ∨ MarkerFree v)) ∧
    (parsePageData (encode (ofValue v : Data P)) = some (ofValue v : Data Q) ↔ DateFree v) := by
  have hdecoded {c : Value} (hc : Printed c) :
      parseNdjsonData (firstLine (ofValue c : Data P)) = some (ofValue v, []) ↔
        c = v ∧ DateFree v ∧ PlaceholderFree v := by
    unfold parseNdjsonData
    rw [readLine_firstLine hc]
    simp only [parsePageData_encode hc, Option.map_some, Option.some.injEq]
    constructor
    · intro hwalk
      obtain ⟨hrevive, hplaceholder⟩ := of_walk_eq (congrArg Prod.fst hwalk)
      obtain ⟨rfl, hdate⟩ := (revive_eq_iff c v).mp hrevive
      exact ⟨rfl, hdate, hplaceholder⟩
    · rintro ⟨rfl, hdate, hplaceholder⟩
      rw [(revive_eq_iff c c).mpr ⟨rfl, hdate⟩]
      exact walk_ofValue hplaceholder []
  constructor
  · cases isDeferredFree with
    | true =>
      have hclient : (prepareDeferred true (ofValue v : Data P) idOffset).forClient = ofValue v :=
        rfl
      rw [hclient, hdecoded h]
      simp
    | false =>
      obtain ⟨c, hclient, hprinted, hc⟩ := exists_split (P := P) h idOffset []
      have hclient : (prepareDeferred false (ofValue v : Data P) idOffset).forClient = ofValue c :=
        hclient
      rw [hclient, hdecoded hprinted]
      rcases hc with ⟨hmarker, rfl⟩ | ⟨hmarker, hplaceholder⟩
      · simp [hmarker]
      · constructor
        · rintro ⟨rfl, -, hfree⟩
          exact (hplaceholder hfree).elim
        · rintro ⟨-, -, hfree | hfree⟩
          · cases hfree
          · exact (hmarker hfree).elim
  · rw [parsePageData_encode h, Option.some.injEq, revive_eq_iff]
    simp

def storedNames : Value :=
  .object [(deferredKey, .string (js "3")), (dateTag, .array [.object [(dateTag, .null)]])]

theorem printed_storedNames : Printed storedNames :=
  .object (.cons (.string _) (.cons (.array (.cons (.object (.cons .null .nil)
    (List.nodup_singleton _)) .nil)) .nil)) (by decide)

theorem decoded_storedNames :
    parseNdjsonData
        (firstLine (prepareDeferred false (ofValue storedNames : Data Empty) 0).forClient) =
          some (ofValue storedNames, []) :=
  (decoded_iff Empty Empty false 0 printed_storedNames).1.mpr ⟨rfl, rfl, Or.inr rfl⟩

def storedNumber : Value := .object [(deferredKey, .number (decimal 3))]

/-- It comes out as a promise that the page waits for. -/
theorem decoded_storedNumber : Printed storedNumber ∧
    parseNdjsonData
        (firstLine (prepareDeferred false (ofValue storedNumber : Data Empty) 0).forClient) =
          some (marker (decimal 3), [decimal 3]) ∧
    marker (decimal 3) ≠ ofValue storedNumber := by
  have hprinted : Printed storedNumber := printed_placeholder 3
  refine ⟨hprinted, ?_, marker_ne_ofValue _ _⟩
  have hclient : (prepareDeferred false (ofValue storedNumber : Data Empty) 0).forClient =
      ofValue storedNumber := rfl
  unfold parseNdjsonData
  rw [hclient, readLine_firstLine hprinted]
  simp only [parsePageData_encode hprinted]
  rfl

end Nifra.Deferred
