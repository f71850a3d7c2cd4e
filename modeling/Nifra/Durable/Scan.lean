import Mathlib.Data.List.Lex
import Nifra.Lib.InsertionMap
import Nifra.Lib.Keyset
import Nifra.Text.JSString

/-! # Keyset scans

`memoryScan` reads every record, `indexedScan` only the buckets of the requested states.
Both answer with `keysetPage`, whose cursor is the last identifier returned. The index
holds each identifier in the bucket of its record's state.
-/

namespace Nifra.Durable

open Keyset

variable {State R : Type} [DecidableEq State]

structure ScanQuery (State : Type) where
  states : List State
  updatedBefore : Option ℕ := none
  limit : ℕ
  limit_pos : 1 ≤ limit

structure ReconciliationScanOptions (State : Type) extends ScanQuery State where
  cursor : Option JSString := none

structure ReconciliationScanPage (R : Type) where
  records : List R
  cursor : Option JSString
  deriving DecidableEq, Repr

def ScanQuery.selects (query : ScanQuery State) (state : State) (updatedAt : ℕ) : Bool :=
  query.states.contains state && query.updatedBefore.all fun before => decide (updatedAt ≤ before)

def keysetPage (found : List (JSString × R)) (limit : ℕ) : ReconciliationScanPage R :=
  let sorted := sortByKey found
  let page := sorted.take limit
  let records := page.map Prod.snd
  match page.getLast? with
  | none => ⟨records, none⟩
  | some last => if sorted.length ≤ limit then ⟨records, none⟩ else ⟨records, some last.1⟩

def memoryMatch (state : R → State) (updatedAt : R → ℕ) (idOf : R → JSString)
    (input : ReconciliationScanOptions State) (record : R) : Option (JSString × R) :=
  if !input.states.contains (state record) then none
  else if input.updatedBefore.any fun before => decide (before < updatedAt record) then none
  else
    let id := idOf record
    if input.cursor.all fun cursor => decide (cursor < id) then some (id, record) else none

def memoryScan (state : R → State) (updatedAt : R → ℕ) (idOf : R → JSString) (source : List R)
    (input : ReconciliationScanOptions State) : ReconciliationScanPage R :=
  keysetPage (source.filterMap (memoryMatch state updatedAt idOf input)) input.limit

abbrev ByState (State : Type) := InsertionMap State (List JSString)

namespace ByState

def bucket (byState : ByState State) (state : State) : List JSString :=
  (byState.get state).getD []

/-- `bucketAdd`: adding to a set that holds the identifier leaves it as it is. -/
def bucketAdd (byState : ByState State) (state : State) (id : JSString) : ByState State :=
  let bucket := byState.bucket state
  byState.set state (if id ∈ bucket then bucket else bucket ++ [id])

def bucketMove (byState : ByState State) (source target : State) (id : JSString) :
    ByState State :=
  if source = target then byState
  else
    let deleted := match byState.get source with
      | none => byState
      | some bucket => byState.set source (bucket.filter (· ≠ id))
    deleted.bucketAdd target id

end ByState

def indexedMatch (updatedAt : R → ℕ) (resolve : JSString → Option R)
    (input : ReconciliationScanOptions State) (id : JSString) : Option (JSString × R) :=
  if input.cursor.any fun cursor => decide (id ≤ cursor) then none
  else match resolve id with
    | none => none
    | some record =>
      if input.updatedBefore.any fun before => decide (before < updatedAt record) then none
      else some (id, record)

def indexedMatches (updatedAt : R → ℕ) (byState : ByState State) (resolve : JSString → Option R)
    (input : ReconciliationScanOptions State) : List (JSString × R) :=
  input.states.eraseDups.flatMap fun state =>
    match byState.get state with
    | none => []
    | some bucket => bucket.filterMap (indexedMatch updatedAt resolve input)

def indexedScan (updatedAt : R → ℕ) (byState : ByState State) (resolve : JSString → Option R)
    (input : ReconciliationScanOptions State) : ReconciliationScanPage R :=
  keysetPage (indexedMatches updatedAt byState resolve input) input.limit

theorem keysetPage_follows {idOf : R → JSString} {found : List (JSString × R)}
    {present : Finset JSString} {matching : Set JSString} {cursor : Option JSString} {limit : ℕ}
    (hlimit : 1 ≤ limit) (hnodup : (found.map Prod.fst).Nodup)
    (hid : ∀ e ∈ found, idOf e.2 = e.1)
    (hmem : ∀ i, i ∈ found.map Prod.fst ↔ i ∈ matching ∧ After id cursor i)
    (hpresent : ∀ i ∈ found.map Prod.fst, i ∈ present) :
    Page.Follows id ⟨present, matching, (keysetPage found limit).records.map idOf,
      (keysetPage found limit).cursor⟩ cursor := by
  have hlt : ((sortByKey found).map Prod.fst).Pairwise fun i j => id i < id j :=
    List.pairwise_map.mpr (pairwise_sortByKey hnodup)
  have hmem' (i : JSString) : i ∈ (sortByKey found).map Prod.fst ↔ i ∈ found.map Prod.fst :=
    ((sortByKey_perm found).map Prod.fst).mem_iff
  have hrecords : (keysetPage found limit).records = ((sortByKey found).take limit).map Prod.snd := by
    unfold keysetPage
    dsimp only
    split
    · rfl
    · split_ifs <;> rfl
  have hcursor : (keysetPage found limit).cursor =
      if ((sortByKey found).map Prod.fst).length ≤ limit then none
      else (((sortByKey found).map Prod.fst).take limit).getLast? := by
    unfold keysetPage
    dsimp only
    rw [List.length_map, ← List.map_take, List.getLast?_map]
    split
    · rename_i hl
      rw [hl]; simp
    · rename_i last hl
      rw [hl]
      split_ifs <;> rfl
  have hids : (keysetPage found limit).records.map idOf = ((sortByKey found).map Prod.fst).take limit := by
    rw [hrecords, List.map_map, ← List.map_take]
    refine List.map_congr_left fun e he => hid e ?_
    exact mem_sortByKey.mp (List.mem_of_mem_take he)
  rw [hids, hcursor]
  exact Page.follows_take hlimit hlt (fun i => (hmem' i).trans (hmem i))
    fun i hi => hpresent i ((hmem' i).mp hi)

/-- A bucketed identifier is recorded under its own name, in the state of its bucket. -/
structure ByState.Indexes (byState : ByState State) (state : R → State)
    (records : InsertionMap JSString R) : Prop where
  mem_bucket_iff : ∀ s id, id ∈ byState.bucket s ↔ ∃ record, records.get id = some record ∧
    state record = s
  nodup_bucket : ∀ s, (byState.bucket s).Nodup

namespace ByState

variable {byState : ByState State} {state : R → State} {records : InsertionMap JSString R}

theorem bucket_bucketAdd (s t : State) (id : JSString) :
    (byState.bucketAdd s id).bucket t =
      if t = s then if id ∈ byState.bucket s then byState.bucket s else byState.bucket s ++ [id]
      else byState.bucket t := by
  unfold bucketAdd
  rw [bucket, InsertionMap.get_set]
  split_ifs <;> rfl

theorem mem_bucketAdd_iff {s t : State} {id i : JSString} :
    i ∈ (byState.bucketAdd s id).bucket t ↔ i ∈ byState.bucket t ∨ t = s ∧ i = id := by
  rw [bucket_bucketAdd]
  split_ifs with ht hid
  · subst ht
    exact ⟨Or.inl, fun h => h.elim (fun h => h) fun h => h.2 ▸ hid⟩
  · subst ht
    simp
  · simp [ht]

theorem nodup_bucketAdd (h : ∀ s, (byState.bucket s).Nodup) (s t : State) (id : JSString) :
    ((byState.bucketAdd s id).bucket t).Nodup := by
  rw [bucket_bucketAdd]
  split_ifs with ht hid
  · exact h s
  · exact List.nodup_append'.mpr ⟨h s, List.nodup_singleton id, by simpa using hid⟩
  · exact h t

/-- The first half of a move: the identifier leaves the bucket of its former state. -/
def removed (byState : ByState State) (source : State) (id : JSString) : ByState State :=
  match byState.get source with
  | none => byState
  | some bucket => byState.set source (bucket.filter (· ≠ id))

theorem bucket_removed (s t : State) (id : JSString) :
    (byState.removed s id).bucket t =
      if t = s then (byState.bucket s).filter (· ≠ id) else byState.bucket t := by
  unfold removed bucket
  cases hs : byState.get s with
  | none =>
    split_ifs with ht
    · rw [ht, hs]; rfl
    · rfl
  | some b =>
    simp only [InsertionMap.get_set]
    split_ifs <;> rfl

theorem Indexes.create (h : byState.Indexes state records) {id : JSString} {record : R}
    (hnew : records.get id = none) :
    (byState.bucketAdd (state record) id).Indexes state (records.set id record) where
  mem_bucket_iff s i := by
    rw [mem_bucketAdd_iff, h.mem_bucket_iff, InsertionMap.get_set]
    split_ifs with hi
    · subst hi
      simp [hnew, eq_comm]
    · simp [hi]
  nodup_bucket s := nodup_bucketAdd h.nodup_bucket _ s id

theorem Indexes.move (h : byState.Indexes state records) {id : JSString} {current next : R}
    (hcurrent : records.get id = some current) :
    (byState.bucketMove (state current) (state next) id).Indexes state
      (records.set id next) := by
  unfold bucketMove
  split_ifs with hsame
  · refine ⟨fun s i => ?_, h.nodup_bucket⟩
    rw [h.mem_bucket_iff, InsertionMap.get_set]
    split_ifs with hi
    · subst hi
      simp [hcurrent, hsame]
    · rfl
  · have hmem (s : State) (i : JSString) : i ∈ (byState.removed (state current) id).bucket s ↔
        i ≠ id ∧ ∃ record, records.get i = some record ∧ state record = s := by
      rw [bucket_removed]
      split_ifs with hs
      · rw [List.mem_filter, decide_eq_true_eq, and_comm, h.mem_bucket_iff, hs]
      · rw [h.mem_bucket_iff]
        refine ⟨fun hr => ⟨?_, hr⟩, And.right⟩
        rintro rfl
        obtain ⟨record, hr, hst⟩ := hr
        exact hs (hst ▸ congrArg state (Option.some.inj (hr.symm.trans hcurrent)))
    have hnodup (s : State) : ((byState.removed (state current) id).bucket s).Nodup := by
      rw [bucket_removed]
      split_ifs
      · exact (h.nodup_bucket _).filter _
      · exact h.nodup_bucket s
    refine ⟨fun s i => ?_, fun s => nodup_bucketAdd hnodup _ s id⟩
    change i ∈ ((byState.removed (state current) id).bucketAdd (state next) id).bucket s ↔ _
    rw [mem_bucketAdd_iff, hmem, InsertionMap.get_set]
    split_ifs with hi
    · subst hi
      simp [eq_comm]
    · simp [hi]

end ByState

def selected (state : R → State) (updatedAt : R → ℕ) (records : InsertionMap JSString R)
    (query : ScanQuery State) : Set JSString :=
  {id | ∃ record, records.get id = some record ∧
    query.selects (state record) (updatedAt record) = true}

theorem not_any_lt_iff {before : Option ℕ} {n : ℕ} :
    ¬ (before.any fun b => decide (b < n)) = true ↔
      (before.all fun b => decide (n ≤ b)) = true := by
  cases before <;> simp

theorem nodup_eraseDups : ∀ l : List State, l.eraseDups.Nodup
  | [] => by simp
  | a :: l => by
    rw [List.eraseDups_cons, List.nodup_cons]
    exact ⟨by simp, nodup_eraseDups _⟩
termination_by l => l.length
decreasing_by exact Nat.lt_succ_of_le (List.length_filter_le _ _)

theorem all_lt_iff_after {cursor : Option JSString} {i : JSString} :
    (cursor.all fun c => decide (c < i)) = true ↔ After id cursor i := by
  cases cursor <;> simp [After]

theorem not_any_le_iff_after {cursor : Option JSString} {i : JSString} :
    ¬ (cursor.any fun c => decide (i ≤ c)) = true ↔ After id cursor i := by
  cases cursor <;> simp [After]

theorem memoryMatch_eq_some_iff {state : R → State} {updatedAt : R → ℕ} {idOf : R → JSString}
    {query : ScanQuery State} {cursor : Option JSString} {record : R} {e : JSString × R} :
    memoryMatch state updatedAt idOf ⟨query, cursor⟩ record = some e ↔
      query.selects (state record) (updatedAt record) = true ∧ After id cursor (idOf record) ∧
        (idOf record, record) = e := by
  simp only [memoryMatch, ScanQuery.selects, Bool.and_eq_true, Option.ite_none_left_eq_some,
    Option.ite_none_right_eq_some, not_any_lt_iff, all_lt_iff_after, Bool.not_eq_true',
    Bool.not_eq_false, and_assoc, Option.some.injEq]

omit [DecidableEq State] in
theorem indexedMatch_eq_some_iff {updatedAt : R → ℕ} {resolve : JSString → Option R}
    {query : ScanQuery State} {cursor : Option JSString} {i : JSString} {e : JSString × R} :
    indexedMatch updatedAt resolve ⟨query, cursor⟩ i = some e ↔
      After id cursor i ∧ ∃ record, resolve i = some record ∧
        (query.updatedBefore.all fun before => decide (updatedAt record ≤ before)) = true ∧
        (i, record) = e := by
  simp only [indexedMatch, Option.ite_none_left_eq_some, not_any_le_iff_after]
  refine and_congr_right fun _ => ?_
  cases resolve i with
  | none => simp
  | some record =>
    simp only [Option.ite_none_left_eq_some, not_any_lt_iff, Option.some.injEq, exists_eq_left']

theorem memoryScan_follows {state : R → State} {updatedAt : R → ℕ} {idOf : R → JSString}
    {source : List R} (hnodup : (source.map idOf).Nodup) (query : ScanQuery State)
    (cursor : Option JSString) :
    Page.Follows id ⟨(source.map idOf).toFinset,
      {i | ∃ record ∈ source, idOf record = i ∧
        query.selects (state record) (updatedAt record) = true},
      (memoryScan state updatedAt idOf source ⟨query, cursor⟩).records.map idOf,
      (memoryScan state updatedAt idOf source ⟨query, cursor⟩).cursor⟩ cursor := by
  refine keysetPage_follows query.limit_pos ?_ ?_ ?_ ?_
  · rw [List.Nodup, List.pairwise_map, List.pairwise_filterMap]
    refine (List.pairwise_map.mp hnodup).imp fun hne e he e' he' => ?_
    obtain ⟨-, -, rfl⟩ := memoryMatch_eq_some_iff.mp he
    obtain ⟨-, -, rfl⟩ := memoryMatch_eq_some_iff.mp he'
    exact hne
  · intro e he
    obtain ⟨record, -, hr⟩ := List.mem_filterMap.mp he
    obtain ⟨-, -, rfl⟩ := memoryMatch_eq_some_iff.mp hr
    rfl
  · intro i
    simp only [List.mem_map, List.mem_filterMap, memoryMatch_eq_some_iff, Set.mem_ofPred_eq]
    constructor
    · rintro ⟨e, ⟨record, hr, hs, ha, rfl⟩, rfl⟩
      exact ⟨⟨record, hr, rfl, hs⟩, ha⟩
    · rintro ⟨⟨record, hr, rfl, hs⟩, ha⟩
      exact ⟨_, ⟨record, hr, hs, ha, rfl⟩, rfl⟩
  · intro i hi
    simp only [List.mem_map, List.mem_filterMap, memoryMatch_eq_some_iff] at hi
    obtain ⟨e, ⟨record, hr, -, -, rfl⟩, rfl⟩ := hi
    exact List.mem_toFinset.mpr (List.mem_map_of_mem hr)

theorem indexedMatches_eq {updatedAt : R → ℕ} {byState : ByState State}
    {resolve : JSString → Option R} {input : ReconciliationScanOptions State} :
    indexedMatches updatedAt byState resolve input = input.states.eraseDups.flatMap fun s =>
      (byState.bucket s).filterMap (indexedMatch updatedAt resolve input) := by
  unfold indexedMatches ByState.bucket
  congr 1
  funext s
  cases byState.get s <;> rfl

theorem mem_indexedMatches_iff {updatedAt : R → ℕ} {byState : ByState State}
    {resolve : JSString → Option R} {input : ReconciliationScanOptions State}
    {e : JSString × R} :
    e ∈ indexedMatches updatedAt byState resolve input ↔
      ∃ s ∈ input.states, ∃ i ∈ byState.bucket s,
        indexedMatch updatedAt resolve input i = some e := by
  simp only [indexedMatches_eq, List.mem_flatMap, List.mem_eraseDups, List.mem_filterMap]

theorem nodup_indexedMatches {state : R → State} {updatedAt : R → ℕ} {byState : ByState State}
    {records : InsertionMap JSString R} (hindex : byState.Indexes state records)
    (query : ScanQuery State) (cursor : Option JSString) :
    ((indexedMatches updatedAt byState records.get ⟨query, cursor⟩).map Prod.fst).Nodup := by
  rw [indexedMatches_eq, List.Nodup, List.pairwise_map, List.pairwise_flatMap]
  refine ⟨fun s _ => ?_, (nodup_eraseDups _).imp fun {s t} hne x hx y hy => ?_⟩
  · rw [List.pairwise_filterMap]
    refine (hindex.nodup_bucket s).imp fun hij e he e' he' => ?_
    obtain ⟨-, _, -, -, rfl⟩ := indexedMatch_eq_some_iff.mp he
    obtain ⟨-, _, -, -, rfl⟩ := indexedMatch_eq_some_iff.mp he'
    exact hij
  · obtain ⟨i, hi, hx⟩ := List.mem_filterMap.mp hx
    obtain ⟨j, hj, hy⟩ := List.mem_filterMap.mp hy
    obtain ⟨-, _, -, -, rfl⟩ := indexedMatch_eq_some_iff.mp hx
    obtain ⟨-, _, -, -, rfl⟩ := indexedMatch_eq_some_iff.mp hy
    rintro rfl
    obtain ⟨r, hr, rfl⟩ := (hindex.mem_bucket_iff s i).mp hi
    obtain ⟨r', hr', rfl⟩ := (hindex.mem_bucket_iff t i).mp hj
    exact hne (congrArg state (Option.some.inj (hr.symm.trans hr')))

theorem indexedScan_follows {state : R → State} {updatedAt : R → ℕ} {idOf : R → JSString}
    {byState : ByState State} {records : InsertionMap JSString R}
    (hindex : byState.Indexes state records)
    (hown : ∀ i record, records.get i = some record → idOf record = i)
    (query : ScanQuery State) (cursor : Option JSString) :
    Page.Follows id ⟨records.keys.toFinset, selected state updatedAt records query,
      (indexedScan updatedAt byState records.get ⟨query, cursor⟩).records.map idOf,
      (indexedScan updatedAt byState records.get ⟨query, cursor⟩).cursor⟩ cursor := by
  refine keysetPage_follows query.limit_pos (nodup_indexedMatches hindex query cursor) ?_ ?_ ?_
  · intro e he
    obtain ⟨s, -, i, -, hm⟩ := mem_indexedMatches_iff.mp he
    obtain ⟨-, record, hr, -, rfl⟩ := indexedMatch_eq_some_iff.mp hm
    exact hown i record hr
  · intro i
    simp only [List.mem_map, mem_indexedMatches_iff, indexedMatch_eq_some_iff, selected,
      Set.mem_ofPred_eq, ScanQuery.selects, Bool.and_eq_true, List.contains_iff_mem]
    constructor
    · rintro ⟨e, ⟨s, hs, j, hj, ha, record, hr, hb, rfl⟩, rfl⟩
      obtain ⟨record', hr', rfl⟩ := (hindex.mem_bucket_iff s j).mp hj
      obtain rfl := Option.some.inj (hr.symm.trans hr')
      exact ⟨⟨record, hr, hs, hb⟩, ha⟩
    · rintro ⟨⟨record, hr, hs, hb⟩, ha⟩
      exact ⟨(i, record), ⟨state record, hs, i, (hindex.mem_bucket_iff _ i).mpr ⟨record, hr, rfl⟩,
        ha, record, hr, hb, rfl⟩, rfl⟩
  · intro i hi
    obtain ⟨e, he, rfl⟩ := List.mem_map.mp hi
    obtain ⟨s, -, j, -, hm⟩ := mem_indexedMatches_iff.mp he
    obtain ⟨-, record, hr, -, rfl⟩ := indexedMatch_eq_some_iff.mp hm
    exact List.mem_toFinset.mpr (InsertionMap.mem_keys_iff.mpr ⟨record, hr⟩)

end Nifra.Durable
