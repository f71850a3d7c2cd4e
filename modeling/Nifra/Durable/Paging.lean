import Nifra.Durable.BackendScan
import Nifra.Durable.Records
import Nifra.Durable.Scan

/-! # The indexed memory stores

`MemoryDurableEffectStore` and `MemorySagaStore` keep a map of records and the index of
their identifiers by state. Creations and transitions keep the index exact, so that a
scan of the index follows its cursor.
-/

namespace Nifra.Durable

open Keyset

section
variable {V : Type}

/-- A map of records beside the index of their identifiers by state. -/
structure IndexedStore (R State : Type) where
  records : InsertionMap JSString R
  byState : ByState State

namespace IndexedStore

variable {R State : Type} [DecidableEq State]

def empty : IndexedStore R State := ⟨∅, ∅⟩

/-- Every record is filed under its own identifier, and its identifier in the bucket of its
state and in no other. -/
structure Valid (state : R → State) (idOf : R → JSString) (store : IndexedStore R State) :
    Prop where
  own : ∀ i record, store.records.get i = some record → idOf record = i
  index : store.byState.Indexes state store.records

variable {state : R → State} {idOf : R → JSString} {store : IndexedStore R State}

theorem Valid.empty : Valid state idOf (empty : IndexedStore R State) where
  own i record h := by cases h
  index := ⟨fun s i => by simp [IndexedStore.empty, ByState.bucket],
    fun s => by simp [IndexedStore.empty, ByState.bucket]⟩

theorem Valid.create (h : store.Valid state idOf) {record : R}
    (hnew : store.records.get (idOf record) = none) :
    Valid state idOf ⟨store.records.set (idOf record) record,
      store.byState.bucketAdd (state record) (idOf record)⟩ where
  own i r hr := by
    rw [InsertionMap.get_set] at hr
    split_ifs at hr with hi
    · rw [hi, Option.some.inj hr]
    · exact h.own i r hr
  index := h.index.create hnew

theorem Valid.move (h : store.Valid state idOf) {id : JSString} {current next : R}
    (hcurrent : store.records.get id = some current) (hnext : idOf next = id) :
    Valid state idOf ⟨store.records.set id next,
      store.byState.bucketMove (state current) (state next) id⟩ where
  own i r hr := by
    rw [InsertionMap.get_set] at hr
    split_ifs at hr with hi
    · rw [hi, ← Option.some.inj hr, hnext]
    · exact h.own i r hr
  index := h.index.move hcurrent

theorem keys_subset_set (records : InsertionMap JSString R) (id : JSString) (record : R) :
    records.keys.toFinset ⊆ (records.set id record).keys.toFinset := by
  intro i hi
  rw [List.mem_toFinset] at hi ⊢
  exact InsertionMap.mem_keys_set.mpr (Or.inr hi)

end IndexedStore

abbrev MemoryDurableEffectStore := IndexedStore DurableEffectRecord DurableEffectState

namespace MemoryDurableEffectStore

def create (store : MemoryDurableEffectStore) (record : DurableEffectRecord) :
    Bool × MemoryDurableEffectStore :=
  if store.records.has record.effectId then (false, store)
  else (true, ⟨store.records.set record.effectId record,
    store.byState.bucketAdd record.state record.effectId⟩)

def transition (store : MemoryDurableEffectStore) (input : DurableEffectTransitionInput) :
    Bool × MemoryDurableEffectStore :=
  let current := store.records.get input.effectId
  match transitionEffect current input, current with
  | some next, some current => (true, ⟨store.records.set input.effectId next,
      store.byState.bucketMove current.state input.toState input.effectId⟩)
  | _, _ => (false, store)

def scan (store : MemoryDurableEffectStore)
    (input : ReconciliationScanOptions DurableEffectState) :
    ReconciliationScanPage DurableEffectRecord :=
  indexedScan (·.updatedAt) store.byState store.records.get input

inductive Write
  | create (record : DurableEffectRecord)
  | transition (input : DurableEffectTransitionInput)

def apply (store : MemoryDurableEffectStore) : Write → MemoryDurableEffectStore
  | .create record => (create store record).2
  | .transition input => (transition store input).2

abbrev Valid (store : MemoryDurableEffectStore) : Prop :=
  IndexedStore.Valid (·.state) (·.effectId) store

theorem apply_cases (store : MemoryDurableEffectStore) (h : Valid store) (write : Write) :
    Valid (apply store write) ∧
      store.records.keys.toFinset ⊆ (apply store write).records.keys.toFinset := by
  cases write with
  | create record =>
    simp only [apply, create]
    split_ifs with hhas
    · exact ⟨h, subset_rfl⟩
    · have hnew : store.records.get record.effectId = none := by
        simpa [InsertionMap.has] using hhas
      exact ⟨h.create hnew, IndexedStore.keys_subset_set ..⟩
  | transition input =>
    simp only [apply, transition]
    split
    · rename_i next current hnext hcurrent
      obtain ⟨record, hrec, -, -, hid, hstate⟩ := transitionEffect_eq_some hnext
      obtain rfl := Option.some.inj (hcurrent.symm.trans hrec)
      rw [← hstate]
      exact ⟨h.move hcurrent (hid.trans (h.own _ _ hcurrent)), IndexedStore.keys_subset_set ..⟩
    · exact ⟨h, subset_rfl⟩

def paged : Store JSString JSString where
  key := id
  State := MemoryDurableEffectStore
  Op := Write
  Query := ScanQuery DurableEffectState
  init := IndexedStore.empty
  apply := apply
  present store := store.records.keys.toFinset
  matching store query := selected (·.state) (·.updatedAt) store.records query
  scan store query cursor :=
    let page := scan store ⟨query, cursor⟩
    some (page.records.map (·.effectId), page.cursor)
  Inv := Valid
  inv_init := .empty
  inv_apply store write h := (apply_cases store h write).1
  present_subset store write h := (apply_cases store h write).2
  scan_follows _ query cursor h _ := ⟨_, rfl, indexedScan_follows h.index h.own query cursor⟩

end MemoryDurableEffectStore

abbrev MemorySagaStore (V : Type) := IndexedStore (SagaRecord V) SagaState

namespace MemorySagaStore

def create (store : MemorySagaStore V) (record : SagaRecord V) : Bool × MemorySagaStore V :=
  if store.records.has record.sagaId then (false, store)
  else (true, ⟨store.records.set record.sagaId record,
    store.byState.bucketAdd record.state record.sagaId⟩)

def compareAndSet (store : MemorySagaStore V) (input : DurableSagaTransitionInput V) :
    Bool × MemorySagaStore V :=
  let current := store.records.get input.sagaId
  match transitionSaga current input, current with
  | some next, some current => (true, ⟨store.records.set input.sagaId next,
      store.byState.bucketMove current.state input.record.state input.sagaId⟩)
  | _, _ => (false, store)

def scan (store : MemorySagaStore V) (input : ReconciliationScanOptions SagaState) :
    ReconciliationScanPage (SagaRecord V) :=
  indexedScan (·.updatedAt) store.byState store.records.get input

inductive Write (V : Type)
  | create (record : SagaRecord V)
  | compareAndSet (input : DurableSagaTransitionInput V)

def apply (store : MemorySagaStore V) : Write V → MemorySagaStore V
  | .create record => (create store record).2
  | .compareAndSet input => (compareAndSet store input).2

abbrev Valid (store : MemorySagaStore V) : Prop :=
  IndexedStore.Valid (·.state) (·.sagaId) store

theorem apply_cases (store : MemorySagaStore V) (h : Valid store) (write : Write V) :
    Valid (apply store write) ∧
      store.records.keys.toFinset ⊆ (apply store write).records.keys.toFinset := by
  cases write with
  | create record =>
    simp only [apply, create]
    split_ifs with hhas
    · exact ⟨h, subset_rfl⟩
    · have hnew : store.records.get record.sagaId = none := by
        simpa [InsertionMap.has] using hhas
      exact ⟨h.create hnew, IndexedStore.keys_subset_set ..⟩
  | compareAndSet input =>
    simp only [apply, compareAndSet]
    split
    · rename_i next current hnext hcurrent
      obtain ⟨rfl, -, hid, -⟩ := transitionSaga_eq_some hnext
      exact ⟨h.move hcurrent hid, IndexedStore.keys_subset_set ..⟩
    · exact ⟨h, subset_rfl⟩

def paged (V : Type) : Store JSString JSString where
  key := id
  State := MemorySagaStore V
  Op := Write V
  Query := ScanQuery SagaState
  init := IndexedStore.empty
  apply := apply
  present store := store.records.keys.toFinset
  matching store query := selected (·.state) (·.updatedAt) store.records query
  scan store query cursor :=
    let page := scan store ⟨query, cursor⟩
    some (page.records.map (·.sagaId), page.cursor)
  Inv := Valid
  inv_init := .empty
  inv_apply store write h := (apply_cases store h write).1
  present_subset store write h := (apply_cases store h write).2
  scan_follows _ query cursor h _ := ⟨_, rfl, indexedScan_follows h.index h.own query cursor⟩

end MemorySagaStore

/-- What `list` answers: the records in any order, no two of them with one identifier. -/
structure Listing (R : Type) (idOf : R → JSString) where
  records : List R
  nodup : (records.map idOf).Nodup

namespace Listing

variable {R State : Type} [DecidableEq State]

/-- The store as `memoryScan` presents it. Any listing that keeps the identifiers may come
next: records are created and changed, and none is dropped. -/
def paged (state : R → State) (updatedAt : R → ℕ) (idOf : R → JSString) :
    Store JSString JSString where
  key := id
  State := Listing R idOf
  Op := Listing R idOf
  Query := ScanQuery State
  init := ⟨[], List.nodup_nil⟩
  apply store next :=
    if (store.records.map idOf).toFinset ⊆ (next.records.map idOf).toFinset then next else store
  present store := (store.records.map idOf).toFinset
  matching store query := {i | ∃ record ∈ store.records, idOf record = i ∧
    query.selects (state record) (updatedAt record) = true}
  scan store query cursor :=
    let page := memoryScan state updatedAt idOf store.records ⟨query, cursor⟩
    some (page.records.map idOf, page.cursor)
  Inv _ := True
  inv_init := trivial
  inv_apply _ _ _ := trivial
  present_subset store next _ := by
    split_ifs with h
    · exact h
    · exact subset_rfl
  scan_follows store query cursor _ _ := ⟨_, rfl, memoryScan_follows store.nodup query cursor⟩

end Listing

end

/-! ## Reconciliation paging

The record backends join the memory stores as stores that are paged while they change.
A walk over any of them returns every record that matches throughout exactly once.
-/

variable {T : Type}

namespace MemoryDurableRecordBackend

def apply (records : Records T) : BackendWrite T → Records T
  | .create kind record => (create records kind record.id record).2
  | .compareAndSet kind expectedVersion record =>
      (compareAndSet records kind record.id expectedVersion record).2

theorem apply_cases (records : Records T) (write : BackendWrite T) :
    apply records write = records ∨
      ∃ kind record, apply records write = records.set (key kind record.id) record := by
  cases write with
  | create kind record =>
    simp only [apply, create]
    split_ifs
    · exact Or.inl rfl
    · exact Or.inr ⟨kind, record, rfl⟩
  | compareAndSet kind expectedVersion record =>
    simp only [apply, compareAndSet]
    split_ifs
    · exact Or.inl rfl
    · exact Or.inr ⟨kind, record, rfl⟩

theorem Filed.set {records : Records T} (h : Filed records) (kind : DurableRecordKind)
    (record : BackendRecord T) : Filed (records.set (key kind record.id) record) := by
  intro k r hr
  rw [InsertionMap.get_set] at hr
  split_ifs at hr with hk
  · exact ⟨kind, by rw [hk, Option.some.inj hr]⟩
  · exact h k r hr

theorem Filed.apply {records : Records T} (h : Filed records) (write : BackendWrite T) :
    Filed (apply records write) := by
  rcases apply_cases records write with he | ⟨kind, record, he⟩
  · rwa [he]
  · rw [he]
    exact h.set kind record

theorem present_subset_apply {records : Records T} (h : Filed records) (write : BackendWrite T)
    (kind : DurableRecordKind) : present records kind ⊆ present (apply records write) kind := by
  intro i hi
  rw [mem_present_iff (h.apply write)]
  obtain ⟨record, hr⟩ := (mem_present_iff h).mp hi
  rcases apply_cases records write with he | ⟨kind', record', he⟩
  · exact ⟨record, by rw [he, hr]⟩
  · rw [he, InsertionMap.get_set]
    split_ifs
    · exact ⟨record', rfl⟩
    · exact ⟨record, hr⟩

def paged (T : Type) (kind : DurableRecordKind) : Store JSString JSString where
  key := key kind
  State := Records T
  Op := BackendWrite T
  Query := ScanQuery JSString
  init := ∅
  apply := apply
  present records := present records kind
  matching records query := matching records kind query
  scan records query cursor :=
    let page := scan records kind ⟨query, cursor⟩
    some (page.records.map (·.id), page.cursor)
  Inv := Filed
  inv_init _ _ h := by cases h
  inv_apply _ write h := h.apply write
  present_subset _ write h := present_subset_apply h write kind
  scan_follows _ query cursor h _ := ⟨_, rfl, scan_follows h query cursor⟩

end MemoryDurableRecordBackend

namespace DurableObjectRecordBackend

def apply (storage : Storage T) : BackendWrite T → Storage T
  | .create kind record => ((create storage kind record.id record).map Prod.snd).getD storage
  | .compareAndSet kind expectedVersion record =>
      ((compareAndSet storage kind record.id expectedVersion record).map Prod.snd).getD storage

theorem apply_cases (storage : Storage T) (write : BackendWrite T) :
    apply storage write = storage ∨ ∃ kind record key, recordKey kind record.id = some key ∧
      apply storage write = storage.set key record := by
  cases write with
  | create kind record =>
    simp only [apply, create]
    cases hk : recordKey kind record.id with
    | none => exact Or.inl rfl
    | some key =>
      simp only [Option.map_some, Option.getD_some]
      split_ifs
      · exact Or.inl rfl
      · exact Or.inr ⟨kind, record, key, hk, rfl⟩
  | compareAndSet kind expectedVersion record =>
    simp only [apply, compareAndSet]
    split_ifs
    · exact Or.inl rfl
    · cases hk : recordKey kind record.id with
      | none => exact Or.inl rfl
      | some key =>
        simp only [Option.map_some, Option.getD_some]
        split_ifs
        · exact Or.inl rfl
        · exact Or.inr ⟨kind, record, key, hk, rfl⟩

theorem Filed.apply {storage : Storage T} (h : Filed storage) (write : BackendWrite T) :
    Filed (apply storage write) := by
  rcases apply_cases storage write with he | ⟨kind, record, key, hkey, he⟩
  · rwa [he]
  · rw [he]
    intro k r hr
    rw [InsertionMap.get_set] at hr
    split_ifs at hr with hk
    · exact ⟨kind, by rw [hk, ← Option.some.inj hr, hkey]⟩
    · exact h k r hr

theorem present_subset_apply {storage : Storage T} (h : Filed storage) (write : BackendWrite T)
    (kind : DurableRecordKind) : present storage kind ⊆ present (apply storage write) kind := by
  intro i hi
  rw [mem_present_iff (h.apply write)]
  obtain ⟨key, record, hk, hr⟩ := (mem_present_iff h).mp hi
  rcases apply_cases storage write with he | ⟨kind', record', key', hk', he⟩
  · exact ⟨key, record, hk, by rw [he, hr]⟩
  · rw [he]
    simp only [InsertionMap.get_set]
    by_cases hkey : key = key'
    · exact ⟨key, record', hk, if_pos hkey⟩
    · exact ⟨key, record, hk, by rw [if_neg hkey, hr]⟩

def paged (T : Type) (kind : DurableRecordKind) : Store JSString JSString where
  key := keyOf kind
  State := Storage T
  Op := BackendWrite T
  Query := ScanQuery JSString
  init := ∅
  apply := apply
  present storage := present storage kind
  matching storage query := matching storage kind query
  scan storage query cursor :=
    (scan storage kind ⟨query, cursor⟩).map fun page => (page.records.map (·.id), page.cursor)
  Inv := Filed
  inv_init _ _ h := by cases h
  inv_apply _ write h := h.apply write
  present_subset _ write h := present_subset_apply h write kind
  scan_follows _ query cursor h hcursor := by
    obtain ⟨page, hpage, hf⟩ := scan_follows h query hcursor
    exact ⟨_, by rw [hpage]; rfl, hf⟩

end DurableObjectRecordBackend

theorem effectStore_valid (writes : List MemoryDurableEffectStore.Write) :
    MemoryDurableEffectStore.Valid
      (writes.foldl MemoryDurableEffectStore.apply IndexedStore.empty) :=
  List.foldlRecOn writes _ .empty fun store h write _ =>
    (MemoryDurableEffectStore.apply_cases store h write).1

theorem sagaStore_valid {V : Type} (writes : List (MemorySagaStore.Write V)) :
    MemorySagaStore.Valid (writes.foldl MemorySagaStore.apply IndexedStore.empty) :=
  List.foldlRecOn writes _ .empty fun store h write _ =>
    (MemorySagaStore.apply_cases store h write).1

/-- Paging misses nothing and repeats nothing, whichever store is paged, and the index by
state holds each identifier in the bucket of its record's state and in no other. -/
theorem paging_exact :
    (∀ (R State : Type) [DecidableEq State] (state : R → State) (updatedAt : R → ℕ)
      (idOf : R → JSString), (Listing.paged state updatedAt idOf).ExactlyOnce) ∧
    MemoryDurableEffectStore.paged.ExactlyOnce ∧
    (∀ V : Type, (MemorySagaStore.paged V).ExactlyOnce) ∧
    (∀ (T : Type) (kind : DurableRecordKind),
      (MemoryDurableRecordBackend.paged T kind).ExactlyOnce) ∧
    (∀ (T : Type) (kind : DurableRecordKind),
      (DurableObjectRecordBackend.paged T kind).ExactlyOnce) ∧
    (∀ writes : List MemoryDurableEffectStore.Write,
      let store := writes.foldl MemoryDurableEffectStore.apply IndexedStore.empty
      ∀ state id, id ∈ store.byState.bucket state ↔
        ∃ record, store.records.get id = some record ∧ record.state = state) ∧
    ∀ (V : Type) (writes : List (MemorySagaStore.Write V)),
      let store := writes.foldl MemorySagaStore.apply IndexedStore.empty
      ∀ state id, id ∈ store.byState.bucket state ↔
        ∃ record, store.records.get id = some record ∧ record.state = state := by
  refine ⟨fun R State _ state updatedAt idOf => Store.exactlyOnce _, Store.exactlyOnce _,
    fun V => Store.exactlyOnce _, fun T kind => Store.exactlyOnce _,
    fun T kind => Store.exactlyOnce _, fun writes => ?_, fun V writes => ?_⟩
  · exact (effectStore_valid writes).index.mem_bucket_iff
  · exact (sagaStore_valid writes).index.mem_bucket_iff

end Nifra.Durable
