import Nifra.Durable.Scan
import Nifra.Text.URI

/-! # The scans of the record backends

`MemoryDurableRecordBackend` sorts the keys of a kind before it cuts a page off.
`DurableObjectRecordBackend` lists a bounded number of keys and filters them, so that
a page may be empty and its cursor may name a record that was not returned.
-/

namespace Nifra.Durable

open Keyset

inductive DurableRecordKind
  | effect | approval | saga
  deriving DecidableEq, Repr

def DurableRecordKind.text : DurableRecordKind → JSString
  | .effect => js "effect"
  | .approval => js "approval"
  | .saga => js "saga"

/-- A record as a backend keeps it: the fields the backend reads, and the rest of it. -/
structure BackendRecord (T : Type) where
  id : JSString
  version : ℕ
  state : Option JSString := none
  updatedAt : Option ℕ := none
  rest : T

/-- A call that writes a backend. Every view of `createDurableExecutionAdapter` files a
record under the identifier it carries. -/
inductive BackendWrite (T : Type)
  | create (kind : DurableRecordKind) (record : BackendRecord T)
  | compareAndSet (kind : DurableRecordKind) (expectedVersion : ℕ) (record : BackendRecord T)

variable {T : Type}

/-- The entries whose key starts with a prefix, which is what both backends scan. -/
def entriesWith (records : InsertionMap JSString (BackendRecord T)) (start : JSString) :
    List (JSString × BackendRecord T) :=
  records.entries.filter fun e => start.isPrefixOf e.1

namespace MemoryDurableRecordBackend

abbrev Records (T : Type) := InsertionMap JSString (BackendRecord T)

def key (kind : DurableRecordKind) (id : JSString) : JSString := kind.text ++ js ":" ++ id

def create (records : Records T) (kind : DurableRecordKind) (id : JSString)
    (record : BackendRecord T) : Bool × Records T :=
  if records.has (key kind id) then (false, records)
  else (true, records.set (key kind id) record)

def compareAndSet (records : Records T) (kind : DurableRecordKind) (id : JSString)
    (expectedVersion : ℕ) (record : BackendRecord T) : Bool × Records T :=
  let current := records.get (key kind id)
  if current.map (·.version) ≠ some expectedVersion ∨ record.version ≠ expectedVersion + 1 then
    (false, records)
  else (true, records.set (key kind id) record)

/-- The test a scan makes on a record, with the defaults of its absent fields. -/
def selects (query : ScanQuery JSString) (record : BackendRecord T) : Bool :=
  query.selects (record.state.getD []) (record.updatedAt.getD 0)

def scan (records : Records T) (kind : DurableRecordKind)
    (input : ReconciliationScanOptions JSString) : ReconciliationScanPage (BackendRecord T) :=
  let start := kind.text ++ js ":"
  let sorted := sortByKey ((entriesWith records start).filter fun e =>
    selects input.toScanQuery e.2)
  let found := sorted.filter fun e =>
    input.cursor.all fun cursor => decide (start ++ cursor < e.1)
  let page := found.take input.limit
  ⟨page.map Prod.snd,
    if input.limit < found.length then
      some (((page.getLast?.map Prod.fst).getD []).drop start.length)
    else none⟩

variable {records : Records T} {kind : DurableRecordKind}

def Filed (records : Records T) : Prop :=
  ∀ k record, records.get k = some record → ∃ kind, k = key kind record.id

theorem isPrefixOf_key_iff {kind' : DurableRecordKind} {i : JSString} :
    (kind.text ++ js ":").isPrefixOf (key kind' i) = true ↔ kind = kind' := by
  rw [List.isPrefixOf_iff_prefix]
  constructor
  · rintro ⟨t, ht⟩
    cases kind <;> cases kind' <;> first | rfl | cases ht
  · rintro rfl
    exact ⟨i, rfl⟩

theorem mem_entriesWith_iff (h : Filed records) {e : JSString × BackendRecord T} :
    e ∈ entriesWith records (kind.text ++ js ":") ↔
      records.get e.1 = some e.2 ∧ e.1 = key kind e.2.id := by
  rw [entriesWith, List.mem_filter, InsertionMap.get_eq_some_iff]
  refine and_congr_right fun he => ?_
  obtain ⟨kind', hk⟩ := h e.1 e.2 (InsertionMap.get_eq_some_iff.mpr he)
  rw [hk, isPrefixOf_key_iff]
  constructor
  · rintro rfl
    rfl
  · intro heq
    rw [← isPrefixOf_key_iff (i := e.2.id), heq, isPrefixOf_key_iff]

def present (records : Records T) (kind : DurableRecordKind) : Finset JSString :=
  ((entriesWith records (kind.text ++ js ":")).map (·.2.id)).toFinset

theorem mem_present_iff (h : Filed records) {i : JSString} :
    i ∈ present records kind ↔ ∃ record, records.get (key kind i) = some record := by
  simp only [present, List.mem_toFinset, List.mem_map, mem_entriesWith_iff h]
  constructor
  · rintro ⟨e, ⟨hg, hk⟩, rfl⟩
    exact ⟨e.2, hk ▸ hg⟩
  · rintro ⟨record, hg⟩
    obtain ⟨kind', hk⟩ := h _ _ hg
    have hkind : kind = kind' :=
      isPrefixOf_key_iff.mp (hk ▸ isPrefixOf_key_iff.mpr (rfl : kind = kind))
    subst hkind
    exact ⟨(key kind i, record), ⟨hg, hk⟩, (List.append_cancel_left hk).symm⟩

def matching (records : Records T) (kind : DurableRecordKind) (query : ScanQuery JSString) :
    Set JSString :=
  {i | ∃ record, records.get (key kind i) = some record ∧ selects query record = true}

theorem scan_follows (h : Filed records) (query : ScanQuery JSString)
    (cursor : Option JSString) :
    Page.Follows (key kind) ⟨present records kind, matching records kind query,
      (scan records kind ⟨query, cursor⟩).records.map (·.id),
      (scan records kind ⟨query, cursor⟩).cursor⟩ cursor := by
  set start := kind.text ++ js ":" with hstart
  set found := (sortByKey ((entriesWith records start).filter fun e => selects query e.2)).filter
    fun e => cursor.all fun c => decide (start ++ c < e.1) with hfound
  have hmem (e : JSString × BackendRecord T) : e ∈ found ↔ (records.get e.1 = some e.2 ∧
      e.1 = key kind e.2.id) ∧ selects query e.2 = true ∧ After (key kind) cursor e.2.id := by
    rw [hfound, List.mem_filter, mem_sortByKey, List.mem_filter, mem_entriesWith_iff h, and_assoc]
    refine and_congr_right fun he => and_congr_right fun _ => ?_
    rw [he.2]
    cases cursor <;> simp [After, key, hstart]
  have hsorted : (found.map (·.2.id)).Pairwise fun i j => key kind i < key kind j := by
    rw [List.pairwise_map]
    have hp : found.Pairwise fun a b => a.1 < b.1 :=
      (pairwise_sortByKey (records.nodup.sublist ((List.filter_sublist.trans
        List.filter_sublist).map _))).sublist List.filter_sublist
    refine hp.imp_of_mem fun ha hb hlt => ?_
    rwa [← ((hmem _).mp ha).1.2, ← ((hmem _).mp hb).1.2]
  have hids (i : JSString) : i ∈ found.map (·.2.id) ↔
      i ∈ matching records kind query ∧ After (key kind) cursor i := by
    rw [List.mem_map]
    constructor
    · rintro ⟨e, he, rfl⟩
      obtain ⟨⟨hg, hk⟩, hs, ha⟩ := (hmem e).mp he
      exact ⟨⟨e.2, hk ▸ hg, hs⟩, ha⟩
    · rintro ⟨⟨record, hg, hs⟩, ha⟩
      obtain ⟨e, he, hi⟩ := List.mem_map.mp (List.mem_toFinset.mp
        ((mem_present_iff h).mpr ⟨record, hg⟩))
      obtain ⟨hg', hk'⟩ := (mem_entriesWith_iff h).mp he
      obtain rfl : e.2 = record := by
        rw [hk', hi] at hg'
        exact Option.some.inj (hg'.symm.trans hg)
      exact ⟨e, (hmem e).mpr ⟨⟨hg', hk'⟩, hs, hi ▸ ha⟩, hi⟩
  have hrecords : (scan records kind ⟨query, cursor⟩).records.map (·.id) =
      (found.map (·.2.id)).take query.limit := by
    rw [← List.map_take]
    exact List.map_map
  have hcursor : (scan records kind ⟨query, cursor⟩).cursor =
      if (found.map (·.2.id)).length ≤ query.limit then none
      else ((found.map (·.2.id)).take query.limit).getLast? := by
    rw [List.length_map]
    change (if query.limit < found.length then _ else none) = _
    by_cases hle : found.length ≤ query.limit
    · rw [if_pos hle, if_neg (not_lt.mpr hle)]
    · rw [if_neg hle, if_pos (not_le.mp hle), ← List.map_take, List.getLast?_map]
      have hne : found ≠ [] := by
        rintro he
        simp [he] at hle
      obtain ⟨init, last, htake, hlast⟩ := exists_concat_take query.limit_pos hne
      have hin : last ∈ found := List.mem_of_mem_take (List.mem_of_getLast? hlast)
      rw [hlast, Option.map_some, Option.map_some, Option.getD_some, ((hmem last).mp hin).1.2, key,
        List.drop_left]
  rw [hrecords, hcursor]
  refine Page.follows_take query.limit_pos hsorted hids fun i hi => ?_
  obtain ⟨record, hg, -⟩ := ((hids i).mp hi).1
  exact (mem_present_iff h).mpr ⟨record, hg⟩

end MemoryDurableRecordBackend

/-- `DurableObjectStorage.list`: entries under a prefix, in key order, after a key. -/
def DurableObjectStorage.list (storage : InsertionMap JSString (BackendRecord T))
    (start : JSString) (startAfter : Option JSString) (limit : ℕ) :
    List (JSString × BackendRecord T) :=
  ((sortByKey (entriesWith storage start)).filter fun e =>
    startAfter.all fun after => decide (after < e.1)).take limit

namespace DurableObjectRecordBackend

abbrev Storage (T : Type) := InsertionMap JSString (BackendRecord T)

def recordPrefix (kind : DurableRecordKind) : JSString :=
  js "record:" ++ kind.text ++ js ":"

/-- `recordKey`, `none` when the identifier has no percent-encoding. -/
def recordKey (kind : DurableRecordKind) (id : JSString) : Option JSString :=
  (encodeURIComponent id).map (recordPrefix kind ++ ·)

/-- `create`, `none` when it throws. -/
def create (storage : Storage T) (kind : DurableRecordKind) (id : JSString)
    (record : BackendRecord T) : Option (Bool × Storage T) :=
  (recordKey kind id).map fun key =>
    if storage.has key then (false, storage) else (true, storage.set key record)

/-- `compareAndSet`, `none` when it throws. -/
def compareAndSet (storage : Storage T) (kind : DurableRecordKind) (id : JSString)
    (expectedVersion : ℕ) (record : BackendRecord T) : Option (Bool × Storage T) :=
  if record.version ≠ expectedVersion + 1 then some (false, storage)
  else (recordKey kind id).map fun key =>
    if (storage.get key).map (·.version) ≠ some expectedVersion then (false, storage)
    else (true, storage.set key record)

def selects (query : ScanQuery JSString) (record : BackendRecord T) : Bool :=
  (record.state.any fun state => query.states.contains state) &&
    query.updatedBefore.all fun before => record.updatedAt.any fun at' => decide (at' ≤ before)

structure Visit (T : Type) where
  selected : List (JSString × BackendRecord T) := []
  lastVisited : Option JSString := none

/-- The loop of `scan`: it decodes each key, keeps the selected records, and stops once it
has one more than a page holds. -/
def visit (query : ScanQuery JSString) (start : JSString) :
    List (JSString × BackendRecord T) → Visit T → Option (Visit T)
  | [], seen => some seen
  | (key, record) :: rest, seen =>
    (decodeURIComponent (key.drop start.length)).bind fun id =>
      let selected :=
        if selects query record then seen.selected ++ [(id, record)] else seen.selected
      if query.limit < selected.length then some ⟨selected, some id⟩
      else visit query start rest ⟨selected, some id⟩

/-- The `startAfter` of a scan, `none` when the cursor has no percent-encoding. -/
def startAfter (start : JSString) : Option JSString → Option (Option JSString)
  | none => some none
  | some cursor => (encodeURIComponent cursor).map fun encoded => some (start ++ encoded)

/-- `scan`, `none` when it throws. -/
def scan (storage : Storage T) (kind : DurableRecordKind)
    (input : ReconciliationScanOptions JSString) :
    Option (ReconciliationScanPage (BackendRecord T)) :=
  let start := recordPrefix kind
  (startAfter start input.cursor).bind fun after =>
    let listed := DurableObjectStorage.list storage start after (input.limit + 1)
    (visit input.toScanQuery start listed {}).map fun seen =>
      let page := seen.selected.take input.limit
      let cursor :=
        if input.limit < seen.selected.length then page.getLast?.map Prod.fst
        else if input.limit < listed.length then seen.lastVisited
        else none
      ⟨page.map Prod.snd, cursor⟩

variable {storage : Storage T} {kind : DurableRecordKind}

/-- Every record is filed under its kind and the encoding of its own identifier. -/
def Filed (storage : Storage T) : Prop :=
  ∀ k record, storage.get k = some record → ∃ kind, recordKey kind record.id = some k

def keyOf (kind : DurableRecordKind) (id : JSString) : JSString := (recordKey kind id).getD []

theorem keyOf_eq {id key : JSString} (h : recordKey kind id = some key) : keyOf kind id = key := by
  rw [keyOf, h, Option.getD_some]

theorem isPrefixOf_recordKey_iff {kind' : DurableRecordKind} {id key : JSString}
    (h : recordKey kind' id = some key) :
    (recordPrefix kind).isPrefixOf key = true ↔ kind = kind' := by
  obtain ⟨encoded, -, rfl⟩ := Option.map_eq_some_iff.mp h
  rw [List.isPrefixOf_iff_prefix]
  constructor
  · rintro ⟨t, ht⟩
    cases kind <;> cases kind' <;> first | rfl | cases ht
  · rintro rfl
    exact ⟨encoded, rfl⟩

theorem decode_recordKey {id key : JSString} (h : recordKey kind id = some key) :
    decodeURIComponent (key.drop (recordPrefix kind).length) = some id := by
  obtain ⟨encoded, he, rfl⟩ := Option.map_eq_some_iff.mp h
  rw [List.drop_left]
  exact decodeURIComponent_encodeURIComponent he

theorem mem_entriesWith_iff (h : Filed storage) {e : JSString × BackendRecord T} :
    e ∈ entriesWith storage (recordPrefix kind) ↔
      storage.get e.1 = some e.2 ∧ recordKey kind e.2.id = some e.1 := by
  rw [entriesWith, List.mem_filter, InsertionMap.get_eq_some_iff]
  refine and_congr_right fun he => ?_
  obtain ⟨kind', hk⟩ := h e.1 e.2 (InsertionMap.get_eq_some_iff.mpr he)
  rw [isPrefixOf_recordKey_iff hk]
  constructor
  · rintro rfl
    exact hk
  · exact fun hk' => (isPrefixOf_recordKey_iff hk).mp ((isPrefixOf_recordKey_iff hk').mpr rfl)

def present (storage : Storage T) (kind : DurableRecordKind) : Finset JSString :=
  ((entriesWith storage (recordPrefix kind)).map (·.2.id)).toFinset

theorem mem_present_iff (h : Filed storage) {i : JSString} :
    i ∈ present storage kind ↔
      ∃ key record, recordKey kind i = some key ∧ storage.get key = some record := by
  simp only [present, List.mem_toFinset, List.mem_map, mem_entriesWith_iff h]
  constructor
  · rintro ⟨e, ⟨hg, hk⟩, rfl⟩
    exact ⟨e.1, e.2, hk, hg⟩
  · rintro ⟨key, record, hk, hg⟩
    obtain ⟨kind', hk'⟩ := h _ _ hg
    obtain rfl := (isPrefixOf_recordKey_iff hk).mp ((isPrefixOf_recordKey_iff hk').mpr rfl)
    have hid := Option.some.inj ((decode_recordKey hk').symm.trans (decode_recordKey hk))
    exact ⟨(key, record), ⟨hg, hk'⟩, hid⟩

def matching (storage : Storage T) (kind : DurableRecordKind) (query : ScanQuery JSString) :
    Set JSString :=
  {i | ∃ key record, recordKey kind i = some key ∧ storage.get key = some record ∧
    selects query record = true}

theorem visit_eq {query : ScanQuery JSString} :
    ∀ {listed : List (JSString × BackendRecord T)} {seen : Visit T},
      (∀ e ∈ listed, recordKey kind e.2.id = some e.1) →
      seen.selected.length + listed.length ≤ query.limit + 1 →
      visit query (recordPrefix kind) listed seen = some
        ⟨seen.selected ++ (listed.filter fun e => selects query e.2).map fun e => (e.2.id, e.2),
          (listed.getLast?.map (·.2.id)).or seen.lastVisited⟩
  | [], seen, _, _ => by simp [visit]
  | (key, record) :: rest, seen, hkeys, hlen => by
    obtain ⟨hkey, hrest⟩ := List.forall_mem_cons.mp hkeys
    rw [visit, decode_recordKey hkey, Option.bind_some]
    rw [List.length_cons] at hlen
    have hlast : (((key, record) :: rest).getLast?.map (·.2.id)) =
        (rest.getLast?.map (·.2.id)).or (some record.id) := by
      cases rest with
      | nil => rfl
      | cons e rest =>
        rw [List.getLast?_cons_cons, List.getLast?_eq_some_getLast (List.cons_ne_nil e rest)]
        rfl
    by_cases hsel : selects query record = true
    · simp only [hsel, if_true, List.length_append, List.length_singleton]
      split_ifs with hfull
      · obtain rfl : rest = [] := List.length_eq_zero_iff.mp (by omega)
        simp [hsel]
      · rw [visit_eq hrest (by simp; omega), hlast, List.filter_cons_of_pos (by simpa using hsel)]
        simp
    · simp only [hsel, if_false, Bool.false_eq_true]
      rw [if_neg (by omega), visit_eq hrest (by dsimp only; omega), hlast,
        List.filter_cons_of_neg (by simpa using hsel)]
      simp

def remaining (storage : Storage T) (kind : DurableRecordKind) (cursor : Option JSString) :
    List (JSString × BackendRecord T) :=
  (sortByKey (entriesWith storage (recordPrefix kind))).filter fun e =>
    (cursor.map (keyOf kind)).all fun after => decide (after < e.1)

theorem mem_remaining_iff (h : Filed storage) {cursor : Option JSString}
    {e : JSString × BackendRecord T} :
    e ∈ remaining storage kind cursor ↔ (storage.get e.1 = some e.2 ∧
      recordKey kind e.2.id = some e.1) ∧ After (keyOf kind) cursor e.2.id := by
  rw [remaining, List.mem_filter, mem_sortByKey, mem_entriesWith_iff h]
  refine and_congr_right fun he => ?_
  cases cursor <;> simp [After, keyOf_eq he.2]

theorem mem_map_remaining_iff (h : Filed storage) {cursor : Option JSString} {i : JSString} :
    i ∈ (remaining storage kind cursor).map (·.2.id) ↔
      i ∈ present storage kind ∧ After (keyOf kind) cursor i := by
  rw [mem_present_iff h, List.mem_map]
  constructor
  · rintro ⟨e, he, rfl⟩
    obtain ⟨⟨hg, hk⟩, ha⟩ := (mem_remaining_iff h).mp he
    exact ⟨⟨e.1, e.2, hk, hg⟩, ha⟩
  · rintro ⟨⟨key, record, hk, hg⟩, ha⟩
    obtain ⟨e, he, hi⟩ := List.mem_map.mp (List.mem_toFinset.mp
      ((mem_present_iff h).mpr ⟨key, record, hk, hg⟩))
    exact ⟨e, (mem_remaining_iff h).mpr ⟨(mem_entriesWith_iff h).mp he, hi ▸ ha⟩, hi⟩

theorem pairwise_remaining (h : Filed storage) (cursor : Option JSString) :
    ((remaining storage kind cursor).map (·.2.id)).Pairwise fun i j =>
      keyOf kind i < keyOf kind j := by
  rw [List.pairwise_map]
  have hp : (remaining storage kind cursor).Pairwise fun a b => a.1 < b.1 :=
    (pairwise_sortByKey (storage.nodup.sublist (List.filter_sublist.map _))).sublist
      List.filter_sublist
  refine hp.imp_of_mem fun ha hb hlt => ?_
  rwa [keyOf_eq ((mem_remaining_iff h).mp ha).1.2, keyOf_eq ((mem_remaining_iff h).mp hb).1.2]

theorem mem_selected_iff (h : Filed storage) {query : ScanQuery JSString}
    {cursor : Option JSString} {part : List (JSString × BackendRecord T)}
    (hpart : ∀ e ∈ part, e ∈ remaining storage kind cursor) {i : JSString} :
    i ∈ (part.filter fun e => selects query e.2).map (·.2.id) ↔
      i ∈ part.map (·.2.id) ∧ i ∈ matching storage kind query := by
  simp only [List.mem_map, List.mem_filter]
  constructor
  · rintro ⟨e, ⟨he, hs⟩, rfl⟩
    obtain ⟨⟨hg, hk⟩, -⟩ := (mem_remaining_iff h).mp (hpart e he)
    exact ⟨⟨e, he, rfl⟩, e.1, e.2, hk, hg, hs⟩
  · rintro ⟨⟨e, he, rfl⟩, key, record, hk, hg, hs⟩
    obtain ⟨⟨hg', hk'⟩, -⟩ := (mem_remaining_iff h).mp (hpart e he)
    obtain rfl := Option.some.inj (hk'.symm.trans hk)
    obtain rfl := Option.some.inj (hg'.symm.trans hg)
    exact ⟨e, ⟨he, hs⟩, rfl⟩

theorem scan_eq (h : Filed storage) (query : ScanQuery JSString) {cursor : Option JSString}
    (hcursor : ∀ c ∈ cursor, ∃ key, recordKey kind c = some key) :
    scan storage kind ⟨query, cursor⟩ =
      let listed := (remaining storage kind cursor).take (query.limit + 1)
      let selected := listed.filter fun e => selects query e.2
      some ⟨(selected.take query.limit).map Prod.snd,
        if query.limit < selected.length then
          (selected.take query.limit).getLast?.map (·.2.id)
        else if query.limit < listed.length then listed.getLast?.map (·.2.id)
        else none⟩ := by
  have hstart : startAfter (recordPrefix kind) cursor = some (cursor.map (keyOf kind)) := by
    cases cursor with
    | none => rfl
    | some c =>
      obtain ⟨key, hk⟩ := hcursor c rfl
      rw [Option.map_some, keyOf_eq hk]
      obtain ⟨encoded, he, rfl⟩ := Option.map_eq_some_iff.mp hk
      simp [startAfter, he]
  set listed := (remaining storage kind cursor).take (query.limit + 1) with hlisted
  have hlist : DurableObjectStorage.list storage (recordPrefix kind) (cursor.map (keyOf kind))
      (query.limit + 1) = listed := rfl
  have hkeys : ∀ e ∈ listed, recordKey kind e.2.id = some e.1 := fun e he =>
    ((mem_remaining_iff h).mp (List.mem_of_mem_take he)).1.2
  have hlen : listed.length ≤ query.limit + 1 := List.length_take_le _ _
  have hvisit : visit query (recordPrefix kind) listed {} = some
      ⟨(listed.filter fun e => selects query e.2).map fun e => (e.2.id, e.2),
        listed.getLast?.map (·.2.id)⟩ := by
    rw [visit_eq hkeys (by simpa using hlen), List.nil_append, Option.or_none]
  simp only [scan, hstart, hlist, hvisit, Option.bind_some, Option.map_some, List.length_map,
    ← List.map_take, List.getLast?_map, List.map_map, Option.map_map]
  rfl

/-- Filtering the first remaining entries follows the cursor, when the next one is the last
entry read or nothing is left. -/
theorem follows_filter_take (h : Filed storage) (query : ScanQuery JSString)
    (cursor : Option JSString) (n : ℕ) {next : Option JSString}
    (hnext : next = none ∧ (remaining storage kind cursor).drop n = [] ∨
      ∃ last, ((remaining storage kind cursor).take n).getLast? = some last ∧
        next = some last.2.id) :
    Page.Follows (keyOf kind) ⟨present storage kind, matching storage kind query,
      (((remaining storage kind cursor).take n).filter fun e => selects query e.2).map (·.2.id),
      next⟩ cursor := by
  set all := remaining storage kind cursor with hall
  have hsplit : (all.take n).map (·.2.id) ++ (all.drop n).map (·.2.id) = all.map (·.2.id) := by
    rw [← List.map_append, List.take_append_drop]
  have hpart : ∀ e ∈ all.take n, e ∈ all := fun e he => List.mem_of_mem_take he
  have hsorted : (all.map (·.2.id)).Pairwise fun i j => keyOf kind i < keyOf kind j :=
    pairwise_remaining h cursor
  refine Page.follows_front {i | i ∈ present storage kind} ((all.take n).map (·.2.id))
    ((all.drop n).map (·.2.id)) (hsplit ▸ hsorted) (fun i => ?_) (fun i hi => ?_) ?_ ?_
    (fun i => mem_selected_iff h hpart) ?_
  · rw [hsplit]
    exact mem_map_remaining_iff h
  · obtain ⟨e, he, rfl⟩ := List.mem_map.mp hi
    exact ((mem_map_remaining_iff h).mp (List.mem_map_of_mem (hpart e he))).1
  · rintro i ⟨key, record, hk, hg, -⟩
    exact (mem_present_iff h).mpr ⟨key, record, hk, hg⟩
  · exact (hsorted.imp fun hlt he => absurd (he ▸ hlt) (lt_irrefl _)).sublist
      ((List.filter_sublist.trans (List.take_sublist _ _)).map _)
  · rcases hnext with ⟨rfl, hd⟩ | ⟨last, hlast, rfl⟩
    · exact Or.inl ⟨rfl, by rw [hd, List.map_nil]⟩
    · obtain ⟨init, he⟩ := List.getLast?_eq_some_iff.mp hlast
      exact Or.inr ⟨init.map (·.2.id), last.2.id, by rw [he]; simp, rfl⟩

/-- Every answer of `scan` follows its cursor: it never throws on a cursor it returned, and a
page cut short by the listing resumes after the last entry visited. -/
theorem scan_follows (h : Filed storage) (query : ScanQuery JSString) {cursor : Option JSString}
    (hcursor : ∀ c ∈ cursor, c ∈ present storage kind) :
    ∃ page, scan storage kind ⟨query, cursor⟩ = some page ∧
      Page.Follows (keyOf kind) ⟨present storage kind, matching storage kind query,
        page.records.map (·.id), page.cursor⟩ cursor := by
  have hkey : ∀ c ∈ cursor, ∃ key, recordKey kind c = some key := fun c hc => by
    obtain ⟨key, -, hk, -⟩ := (mem_present_iff h).mp (hcursor c hc)
    exact ⟨key, hk⟩
  refine ⟨_, scan_eq h query hkey, ?_⟩
  set all := remaining storage kind cursor with hall
  set listed := all.take (query.limit + 1) with hlisted
  set selected := listed.filter fun e => selects query e.2 with hselected
  have hlen : listed.length ≤ query.limit + 1 := List.length_take_le _ _
  have hids (part : List (JSString × BackendRecord T)) :
      (part.map Prod.snd).map (·.id) = part.map (·.2.id) := List.map_map
  dsimp only
  rw [hids]
  by_cases hfull : query.limit < selected.length
  · -- every listed entry was selected, and the last of them overflows the page
    have hle : listed.length ≤ selected.length := by omega
    have hsel : selected = listed := List.filter_sublist.eq_of_length_le hle
    have hpage : selected.take query.limit = all.take query.limit := by
      rw [hsel, hlisted, List.take_take, min_eq_left (Nat.le_succ _)]
    have hkeep : (all.take query.limit).filter (fun e => selects query e.2) =
        all.take query.limit := by
      rw [List.filter_eq_self]
      intro e he
      rw [← hpage] at he
      exact (List.mem_filter.mp (List.mem_of_mem_take he)).2
    have hne : all ≠ [] := by
      rintro hnil
      simp [hselected, hlisted, hnil] at hfull
    obtain ⟨init, last, -, hlast⟩ := exists_concat_take query.limit_pos hne
    rw [if_pos hfull, hpage, ← hkeep, hkeep, hlast]
    have := follows_filter_take h query cursor query.limit (Or.inr ⟨last, hlast, rfl⟩)
    rwa [← hall, hkeep] at this
  · rw [if_neg hfull, List.take_of_length_le (not_lt.mp hfull)]
    refine follows_filter_take h query cursor (query.limit + 1) ?_
    rw [← hall, ← hlisted]
    split_ifs with hmore
    · have hne : all ≠ [] := by
        rintro hnil
        simp [hlisted, hnil] at hmore
      obtain ⟨init, last, -, hlast⟩ := exists_concat_take (Nat.le_add_left 1 query.limit) hne
      exact Or.inr ⟨last, hlast, by rw [hlisted, hlast]; rfl⟩
    · refine Or.inl ⟨rfl, List.drop_eq_nil_of_le ?_⟩
      rw [hlisted, List.length_take] at hmore
      omega

end DurableObjectRecordBackend

end Nifra.Durable
