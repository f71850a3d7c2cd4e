import Mathlib.Data.List.Pairwise
import Nifra.Cache.Fences

/-! # The rows of the store in memory and their index

Over every history of a store, its index by tag lists exactly the rows that carry the tag, and the
rows stand in the order of their last uses. The clock may show anything at any reading.
-/

namespace Nifra.Cache

namespace MemoryCache

variable {V : Type}

/-- `sweepExpired` under a clock that is read once for each row it visits. -/
def sweepAt (clock : ℕ → ℤ) : ℕ → MemoryCache V → MemoryCache V
  | 0, store => store
  | limit + 1, store =>
    match store.nextRow with
    | some entry => sweepAt clock limit (store.visit entry (clock limit))
    | none =>
      let store := { store with sweep := some 0 }
      match store.nextRow with
      | some entry => sweepAt clock limit (store.visit entry (clock limit))
      | none => { store with sweep := none }

/-- `rows.set` and the links from its tags. -/
def insert (store : MemoryCache V) (key : JSString) (entry : StoredEntry V)
    (tags : List JSString) : MemoryCache V :=
  { store.append key ⟨entry, tags, 0⟩ with tagIndex := tags.foldl (link key) store.tagIndex }

/-- `set` under such a clock. -/
def setAt (store : MemoryCache V) (key : JSString) (entry : StoredEntry V) (tags : List JSString)
    (clock : ℕ → ℤ) : MemoryCache V :=
  (((sweepAt clock 8 (store.recordKey key)).evict key).insert key entry tags).trim

def Filled (index : InsertionMap JSString (InsertionMap JSString Unit)) : Prop :=
  ∀ tag keys, index.get tag = some keys → keys.keys ≠ []

/-- The index links each tag to exactly the rows that carry it, and has no empty set. -/
structure Represents (store : MemoryCache V) : Prop where
  linked : ∀ key tag, Linked store.tagIndex key tag ↔
    ∃ row, store.rows.get key = some row ∧ tag ∈ row.tags
  filled : Filled store.tagIndex

variable {index : InsertionMap JSString (InsertionMap JSString Unit)}
variable {key key' tag tag' : JSString} {tags : List JSString}

theorem linked_iff : Linked index key tag ↔
    ∃ keys, index.get tag = some keys ∧ key ∈ keys.keys := by
  simp only [Linked, InsertionMap.mem_keys_iff, InsertionMap.has, Option.isSome_iff_exists]

theorem get_unlink_eq_some_iff {keys : InsertionMap JSString Unit} :
    (unlink key index tag).get tag' = some keys ↔
      if tag' = tag then ∃ before, index.get tag = some before ∧ keys = before.delete key ∧
        keys.keys ≠ []
      else index.get tag' = some keys := by
  unfold unlink
  cases hget : index.get tag with
  | none =>
    split_ifs with htag
    · simp [htag, hget]
    · rfl
  | some before =>
    by_cases hsize : (before.delete key).size = 0
    · have hkeys := InsertionMap.keys_eq_nil_iff.mpr hsize
      simp only [if_pos hsize, InsertionMap.get_delete]
      split_ifs with htag
      · constructor
        · rintro ⟨⟩
        · rintro ⟨_, ⟨⟩, rfl, hne⟩
          exact absurd hkeys hne
      · rfl
    · have hkeys := mt InsertionMap.keys_eq_nil_iff.mp hsize
      simp only [if_neg hsize, InsertionMap.get_set]
      split_ifs with htag
      · constructor
        · rintro ⟨⟩
          exact ⟨before, rfl, rfl, hkeys⟩
        · rintro ⟨_, ⟨⟩, rfl, -⟩
          rfl
      · rfl

theorem linked_unlink_iff : Linked (unlink key index tag) key' tag' ↔
    Linked index key' tag' ∧ ¬(tag' = tag ∧ key' = key) := by
  simp only [linked_iff, get_unlink_eq_some_iff]
  by_cases htag : tag' = tag
  · subst htag
    simp only [if_pos, true_and]
    constructor
    · rintro ⟨_, ⟨before, hbefore, rfl, -⟩, hmem⟩
      obtain ⟨hne, hmem⟩ := InsertionMap.mem_keys_delete.mp hmem
      exact ⟨⟨before, hbefore, hmem⟩, hne⟩
    · rintro ⟨⟨before, hbefore, hmem⟩, hne⟩
      have hleft := InsertionMap.mem_keys_delete.mpr ⟨hne, hmem⟩
      exact ⟨_, ⟨before, hbefore, rfl, List.ne_nil_of_mem hleft⟩, hleft⟩
  · simp only [htag, if_false, false_and, not_false_eq_true, and_true]

theorem filled_unlink (h : Filled index) : Filled (unlink key index tag) := by
  intro tag' keys hget
  rw [get_unlink_eq_some_iff] at hget
  split_ifs at hget with htag
  · obtain ⟨-, -, -, hne⟩ := hget
    exact hne
  · exact h tag' keys hget

theorem linked_unlinkAll (tags : List JSString) : Linked (tags.foldl (unlink key) index) key' tag ↔
    Linked index key' tag ∧ ¬(tag ∈ tags ∧ key' = key) := by
  induction tags generalizing index with
  | nil => simp
  | cons first tags ih =>
    rw [List.foldl_cons, ih, linked_unlink_iff, List.mem_cons]
    tauto

theorem filled_unlinkAll (tags : List JSString) (h : Filled index) :
    Filled (tags.foldl (unlink key) index) := by
  induction tags generalizing index with
  | nil => exact h
  | cons first tags ih => exact ih (filled_unlink h)

theorem get_link_eq_some_iff {keys : InsertionMap JSString Unit} :
    (link key index tag).get tag' = some keys ↔
      if tag' = tag then keys = ((index.get tag).getD ∅).set key ()
      else index.get tag' = some keys := by
  rw [link, InsertionMap.get_set]
  split_ifs
  · rw [Option.some.injEq, eq_comm]
  · rfl

theorem linked_link_iff : Linked (link key index tag) key' tag' ↔
    Linked index key' tag' ∨ tag' = tag ∧ key' = key := by
  simp only [linked_iff, get_link_eq_some_iff]
  by_cases htag : tag' = tag
  · subst htag
    simp only [if_pos, true_and, exists_eq_left, InsertionMap.mem_keys_set]
    cases hget : index.get tag' with
    | none => simp
    | some keys => simp [or_comm]
  · simp only [htag, if_false, false_and, or_false]

theorem filled_link (h : Filled index) : Filled (link key index tag) := by
  intro tag' keys hget
  rw [get_link_eq_some_iff] at hget
  split_ifs at hget with htag
  · rw [hget]
    exact List.ne_nil_of_mem (InsertionMap.mem_keys_set.mpr (Or.inl rfl))
  · exact h tag' keys hget

theorem linked_linkAll (tags : List JSString) : Linked (tags.foldl (link key) index) key' tag ↔
    Linked index key' tag ∨ tag ∈ tags ∧ key' = key := by
  induction tags generalizing index with
  | nil => simp
  | cons first tags ih =>
    rw [List.foldl_cons, ih, linked_link_iff, List.mem_cons]
    tauto

theorem filled_linkAll (tags : List JSString) (h : Filled index) :
    Filled (tags.foldl (link key) index) := by
  induction tags generalizing index with
  | nil => exact h
  | cons first tags ih => exact ih (filled_link h)

structure Takes (s t : MemoryCache V) (gone : JSString → Row V → Prop) : Prop where
  maxEntries : t.maxEntries = s.maxEntries
  keys : t.rows.keys.Sublist s.rows.keys
  rows : ∀ key, t.rows.get key = s.rows.get key ∨
    t.rows.get key = none ∧ ∃ row, s.rows.get key = some row ∧ gone key row
  represents : s.Represents → t.Represents

variable {s t u : MemoryCache V} {gone gone' : JSString → Row V → Prop}

theorem Takes.refl : Takes s s gone := ⟨rfl, List.Sublist.refl _, fun _ => Or.inl rfl, id⟩

theorem Takes.trans (h : Takes s t gone) (h' : Takes t u gone) : Takes s u gone where
  maxEntries := h'.maxEntries.trans h.maxEntries
  keys := h'.keys.trans h.keys
  rows key := by
    rcases h'.rows key with hsame' | ⟨hnone, row, hrow, hgone⟩
    · rw [hsame']
      exact h.rows key
    · rcases h.rows key with hsame | ⟨hnone', -⟩
      · exact Or.inr ⟨hnone, row, hsame ▸ hrow, hgone⟩
      · rw [hnone'] at hrow
        cases hrow
  represents hs := h'.represents (h.represents hs)

theorem Takes.mono (h : Takes s t gone) (hgone : ∀ key row, gone key row → gone' key row) :
    Takes s t gone' where
  maxEntries := h.maxEntries
  keys := h.keys
  rows key := (h.rows key).imp_right fun ⟨hnone, row, hrow, hrowgone⟩ =>
    ⟨hnone, row, hrow, hgone key row hrowgone⟩
  represents := h.represents

theorem takes_evict : Takes s (s.evict key) fun key' _ => key' = key := by
  cases hget : s.rows.get key with
  | none =>
    have hsame : s.evict key = s := by rw [evict, hget]
    rw [hsame]
    exact .refl
  | some row =>
    have hevict : s.evict key = { s with
        rows := s.rows.delete key
        tagIndex := row.tags.foldl (unlink key) s.tagIndex } := by rw [evict, hget]
    constructor
    · rw [hevict]
    · rw [hevict, InsertionMap.keys_delete]
      exact List.filter_sublist
    · intro key'
      rw [rows_evict]
      split_ifs with hkey
      · rw [hkey]
        exact Or.inr ⟨rfl, row, hget, rfl⟩
      · exact Or.inl rfl
    · intro hs
      constructor
      · intro key' tag
        rw [rows_evict, hevict, linked_unlinkAll, hs.linked]
        split_ifs with hkey
        · subst hkey
          constructor
          · rintro ⟨⟨row', hrow', htag⟩, hnot⟩
            obtain rfl := Option.some.inj (hget.symm.trans hrow')
            exact absurd ⟨htag, rfl⟩ hnot
          · rintro ⟨_, ⟨⟩, -⟩
        · simp [hkey]
      · rw [hevict]
        exact filled_unlinkAll _ hs.filled

theorem takes_sweep {sweep : Option ℕ} : Takes s { s with sweep := sweep } gone :=
  ⟨rfl, List.Sublist.refl _, fun _ => Or.inl rfl, fun h => ⟨h.linked, h.filled⟩⟩

theorem takes_visit {visited : JSString × Row V} {now : ℤ}
    (hvisited : s.rows.get visited.1 = some visited.2) :
    Takes s (s.visit visited now) fun _ row => row.expiresAt ≤ now := by
  unfold visit
  dsimp only
  split_ifs with hexpired
  · have hevict : Takes s (evict { s with sweep := some visited.2.serial } visited.1)
        fun key _ => key = visited.1 := takes_sweep.trans takes_evict
    constructor
    · exact hevict.maxEntries
    · exact hevict.keys
    · intro key
      refine (hevict.rows key).imp_right ?_
      rintro ⟨hnone, row, hrow, rfl⟩
      rw [hvisited] at hrow
      obtain rfl := Option.some.inj hrow
      exact ⟨hnone, _, hvisited, hexpired⟩
    · exact hevict.represents
  · exact takes_sweep

theorem get_of_nextRow {entry : JSString × Row V} (h : s.nextRow = some entry) :
    s.rows.get entry.1 = some entry.2 := by
  obtain ⟨reached, -, hfind⟩ := Option.bind_eq_some_iff.mp h
  exact InsertionMap.get_eq_some_iff.mpr (List.mem_of_find?_eq_some hfind)

theorem takes_sweepAt (clock : ℕ → ℤ) (limit : ℕ) (s : MemoryCache V) :
    Takes s (sweepAt clock limit s) fun _ row => ∃ i, row.expiresAt ≤ clock i := by
  induction limit generalizing s with
  | zero => exact .refl
  | succ limit ih =>
    have hvisit {t : MemoryCache V} {entry : JSString × Row V} (hentry : t.nextRow = some entry) :
        Takes t (sweepAt clock limit (t.visit entry (clock limit)))
          fun _ row => ∃ i, row.expiresAt ≤ clock i := by
      refine Takes.trans ?_ (ih _)
      exact (takes_visit (get_of_nextRow hentry)).mono fun _ _ hle => ⟨limit, hle⟩
    cases hnext : s.nextRow with
    | some entry =>
      simp only [sweepAt, hnext]
      exact hvisit hnext
    | none =>
      cases hfirst : nextRow { s with sweep := some 0 } with
      | some entry =>
        simp only [sweepAt, hnext, hfirst]
        exact takes_sweep.trans (hvisit hfirst)
      | none =>
        simp only [sweepAt, hnext, hfirst]
        exact takes_sweep

theorem takes_recordKey : Takes s (s.recordKey key) gone :=
  ⟨rfl, List.Sublist.refl _, fun _ => Or.inl rfl, fun h => ⟨h.linked, h.filled⟩⟩

theorem takes_recordTag : Takes s (s.recordTag tag) gone :=
  ⟨rfl, List.Sublist.refl _, fun _ => Or.inl rfl, fun h => ⟨h.linked, h.filled⟩⟩

def UsedBefore (uses : List JSString) (key other : JSString) : Prop :=
  ∃ earlier later, uses = earlier ++ key :: later ∧ key ∉ later ∧ other ∈ later

structure Recent (s : MemoryCache V) (uses : List JSString) : Prop where
  used : ∀ key ∈ s.rows.keys, key ∈ uses
  order : s.rows.keys.Pairwise (UsedBefore uses)

variable {uses : List JSString} {other : JSString}

theorem UsedBefore.append (h : UsedBefore uses key other) {used : JSString} (hne : key ≠ used) :
    UsedBefore (uses ++ [used]) key other := by
  obtain ⟨earlier, later, rfl, hnot, hmem⟩ := h
  refine ⟨earlier, later ++ [used], by simp, ?_, List.mem_append_left _ hmem⟩
  simp [hnot, hne]

theorem exists_last_use (h : key ∈ uses) :
    ∃ earlier later, uses = earlier ++ key :: later ∧ key ∉ later := by
  induction uses with
  | nil => cases h
  | cons first uses ih =>
    by_cases hmem : key ∈ uses
    · obtain ⟨earlier, later, rfl, hnot⟩ := ih hmem
      exact ⟨first :: earlier, later, rfl, hnot⟩
    · obtain rfl := (List.mem_cons.mp h).resolve_right hmem
      exact ⟨[], uses, rfl, hmem⟩

theorem usedBefore_last (h : key ∈ uses) {used : JSString} (hne : key ≠ used) :
    UsedBefore (uses ++ [used]) key used := by
  obtain ⟨earlier, later, rfl, hnot⟩ := exists_last_use h
  exact ⟨earlier, later ++ [used], by simp, by simp [hnot, hne], by simp⟩

theorem Recent.takes (h : Recent s uses) (ht : Takes s t gone) : Recent t uses where
  used key hkey := h.used key (ht.keys.subset hkey)
  order := h.order.sublist ht.keys

theorem Recent.use (h : Recent s uses) (hnew : key ∉ s.rows.keys)
    (hkeys : t.rows.keys = s.rows.keys ++ [key]) : Recent t (uses ++ [key]) where
  used other hother := by
    rw [hkeys] at hother
    rcases List.mem_append.mp hother with hother | hother
    · exact List.mem_append_left _ (h.used other hother)
    · exact List.mem_append_right _ hother
  order := by
    have hne {other : JSString} (hother : other ∈ s.rows.keys) : other ≠ key := by
      rintro rfl
      exact hnew hother
    rw [hkeys, List.pairwise_append]
    refine ⟨?_, List.pairwise_singleton _ _, ?_⟩
    · refine h.order.imp_of_mem ?_
      intro other _ hother _ hbefore
      exact hbefore.append (hne hother)
    · intro other hother last hlast
      rw [List.mem_singleton.mp hlast]
      exact usedBefore_last (h.used other hother) (hne hother)

theorem keys_append {row : Row V} (hnew : key ∉ s.rows.keys) :
    (s.append key row).rows.keys = s.rows.keys ++ [key] := by
  rw [append, InsertionMap.keys_set, if_neg hnew]

structure GetSound (s : MemoryCache V) (uses : List JSString) (key : JSString) (now : ℤ)
    (answer : Option (StoredEntry V)) (t : MemoryCache V) (uses' : List JSString) : Prop where
  found : ∀ entry ∈ answer, uses' = uses ++ [key] ∧ now < entry.expiresAt ∧
    ∃ row, s.rows.get key = some row ∧ row.toStoredEntry = entry
  missed : answer = none → uses' = uses ∧ ∀ row, s.rows.get key = some row → row.expiresAt ≤ now
  rows : ∀ other, other ≠ key → t.rows.get other = s.rows.get other

def usesAfter (uses : List JSString) (key : JSString) (answer : Option (StoredEntry V)) :
    List JSString :=
  if answer.isSome then uses ++ [key] else uses

theorem not_mem_keys_evict : key ∉ (s.evict key).rows.keys := by
  rw [← InsertionMap.get_eq_none_iff, rows_evict, if_pos rfl]

def touch (s : MemoryCache V) (key : JSString) (row : Row V) : MemoryCache V :=
  { s with rows := s.rows.delete key }.append key row

theorem rows_touch {row : Row V} : (s.touch key row).rows.get key' =
    if key' = key then some { row with serial := s.serial + 1 } else s.rows.get key' := by
  rw [touch, append, InsertionMap.get_set]
  split_ifs with hkey
  · rfl
  · rw [InsertionMap.get_delete, if_neg hkey]

theorem represents_touch {row : Row V} (hrow : s.rows.get key = some row) (h : s.Represents) :
    (s.touch key row).Represents where
  linked key' tag := by
    have hindex : (s.touch key row).tagIndex = s.tagIndex := rfl
    rw [hindex, h.linked, rows_touch]
    split_ifs with hkey
    · simp [hkey, hrow]
    · rfl
  filled := h.filled

theorem keys_touch {row : Row V} :
    (s.touch key row).rows.keys = (s.rows.delete key).keys ++ [key] := by
  apply keys_append
  rw [InsertionMap.mem_keys_delete]
  exact fun h => h.1 rfl

structure Kept (s : MemoryCache V) (uses : List JSString) (bound : ℕ) : Prop where
  represents : s.Represents
  recent : Recent s uses
  maxEntries : s.maxEntries = bound
  bounded : 0 < bound → s.rows.keys.length ≤ bound

variable {bound : ℕ}

theorem Kept.takes (h : Kept s uses bound) (ht : Takes s t gone) : Kept t uses bound where
  represents := ht.represents h.represents
  recent := h.recent.takes ht
  maxEntries := ht.maxEntries.trans h.maxEntries
  bounded hpos := ht.keys.length_le.trans (h.bounded hpos)

theorem Kept.get (h : Kept s uses bound) (key : JSString) (now : ℤ) :
    Kept (s.get key now).1 (usesAfter uses key (s.get key now).2) bound ∧
      GetSound s uses key now (s.get key now).2 (s.get key now).1
        (usesAfter uses key (s.get key now).2) := by
  cases hrow : s.rows.get key with
  | none =>
    have hget : s.get key now = (s, none) := by rw [MemoryCache.get, hrow]
    rw [hget]
    refine ⟨h, ⟨by rintro _ ⟨⟩, fun _ => ⟨rfl, ?_⟩, fun _ _ => rfl⟩⟩
    rw [hrow]
    rintro row ⟨⟩
  | some row =>
    by_cases hexpired : row.expiresAt ≤ now
    · have hget : s.get key now = (s.evict key, none) := by
        simp only [MemoryCache.get, hrow, if_pos hexpired]
      rw [hget]
      refine ⟨h.takes takes_evict, ⟨by rintro _ ⟨⟩, fun _ => ⟨rfl, ?_⟩, ?_⟩⟩
      · rw [hrow]
        rintro _ ⟨⟩
        exact hexpired
      · intro other hother
        rw [rows_evict, if_neg hother]
    · have hget : s.get key now = (s.touch key row, some row.toStoredEntry) := by
        simp only [MemoryCache.get, hrow, if_neg hexpired]
        rfl
      have hmem : key ∈ s.rows.keys := InsertionMap.mem_keys_iff.mpr ⟨row, hrow⟩
      rw [hget]
      constructor
      · constructor
        · exact represents_touch hrow h.represents
        · have hdeleted : Recent { s with rows := s.rows.delete key } uses := by
            constructor
            · intro other hother
              exact h.recent.used other (InsertionMap.mem_keys_delete.mp hother).2
            · refine List.Pairwise.sublist ?_ h.recent.order
              rw [InsertionMap.keys_delete]
              exact List.filter_sublist
          refine hdeleted.use ?_ keys_touch
          intro hdeleted
          exact (InsertionMap.mem_keys_delete.mp hdeleted).1 rfl
        · exact h.maxEntries
        · intro hpos
          have hlength : (s.touch key row).rows.keys.length = s.rows.keys.length := by
            rw [keys_touch, List.length_append, ← InsertionMap.size_eq_length_keys,
              ← InsertionMap.size_eq_length_keys]
            exact InsertionMap.size_delete hrow
          rw [hlength]
          exact h.bounded hpos
      · constructor
        · rintro _ ⟨⟩
          exact ⟨rfl, not_le.mp hexpired, row, hrow, rfl⟩
        · rintro ⟨⟩
        · intro other hother
          rw [rows_touch, if_neg hother]

theorem represents_insert (entry : StoredEntry V) (tags : List JSString) (hnew : key ∉ s.rows.keys)
    (h : s.Represents) :
    (s.insert key entry tags).Represents where
  linked key' tag := by
    have hnone := InsertionMap.get_eq_none_iff.mpr hnew
    have hindex : (s.insert key entry tags).tagIndex = tags.foldl (link key) s.tagIndex := rfl
    have hrows : (s.insert key entry tags).rows =
        s.rows.set key { entry with tags := tags, serial := s.serial + 1 } := rfl
    rw [hindex, hrows, linked_linkAll, h.linked, InsertionMap.get_set]
    split_ifs with hkey
    · simp [hkey, hnone]
    · simp [hkey]
  filled := filled_linkAll tags h.filled

/-- What a writing leaves: its own row, and of the others all but rows that were over and, in a
store that is full with a new key, the one that was not used for longest. -/
structure SetSound (s : MemoryCache V) (uses : List JSString) (key : JSString)
    (entry : StoredEntry V) (tags : List JSString) (clock : ℕ → ℤ) (t : MemoryCache V) : Prop where
  written : ∃ row, t.rows.get key = some row ∧ row.toStoredEntry = entry ∧ row.tags = tags
  rows : ∀ other, other ≠ key → t.rows.get other = s.rows.get other ∨ t.rows.get other = none
  victims : ∃ victim : Option JSString,
    (∀ other, other ≠ key → ∀ row, s.rows.get other = some row → t.rows.get other = none →
      (∃ i, row.expiresAt ≤ clock i) ∨ victim = some other) ∧
    ∀ oldest ∈ victim, oldest ≠ key ∧ s.rows.get key = none ∧ 0 < s.maxEntries ∧
      t.rows.size = s.maxEntries ∧ ∀ other ∈ t.rows.keys, UsedBefore (uses ++ [key]) oldest other

theorem rows_evict_eq (s : MemoryCache V) (key : JSString) :
    (s.evict key).rows = s.rows.delete key := by
  unfold evict
  split
  · next hnone =>
    apply InsertionMap.ext
    exact (InsertionMap.entries_delete_of_get_none hnone).symm
  · rfl

theorem trim_cases (s : MemoryCache V) :
    s.trim = s ∧ (0 < s.maxEntries → s.rows.keys.length ≤ s.maxEntries) ∨
      0 < s.maxEntries ∧ s.maxEntries < s.rows.keys.length ∧
        ∃ oldest rest, s.rows.keys = oldest :: rest ∧ s.trim = s.evict oldest := by
  rw [← InsertionMap.size_eq_length_keys]
  unfold trim
  split_ifs with hfull
  · obtain ⟨hpos, hlt⟩ := hfull
    cases hentries : s.rows.entries with
    | nil =>
      rw [InsertionMap.size, hentries] at hlt
      exact absurd hlt (Nat.not_lt_zero _)
    | cons oldest rest =>
      right
      refine ⟨hpos, hlt, oldest.1, rest.map Prod.fst, ?_, rfl⟩
      rw [InsertionMap.keys, hentries, List.map_cons]
  · exact Or.inl ⟨rfl, fun hpos => Nat.not_lt.mp fun hlt => hfull ⟨hpos, hlt⟩⟩

theorem get_insert {entry : StoredEntry V} : (s.insert key entry tags).rows.get key' =
    if key' = key then some { entry with tags := tags, serial := s.serial + 1 }
    else s.rows.get key' := by
  rw [insert, append, InsertionMap.get_set]

theorem Kept.insert (h : Kept s uses bound) (hnew : key ∉ s.rows.keys) (entry : StoredEntry V)
    (tags : List JSString) :
    Kept (s.insert key entry tags).trim (uses ++ [key]) bound ∧
      (∃ row, (s.insert key entry tags).trim.rows.get key = some row ∧ row.toStoredEntry = entry ∧
        row.tags = tags) ∧
      ∃ victim : Option JSString,
        (∀ other, other ≠ key → (s.insert key entry tags).trim.rows.get other =
          if victim = some other then none else s.rows.get other) ∧
        ∀ oldest ∈ victim, oldest ≠ key ∧ 0 < bound ∧ s.rows.keys.length = bound ∧
          (s.insert key entry tags).trim.rows.size = bound ∧
          ∀ other ∈ (s.insert key entry tags).trim.rows.keys,
            UsedBefore (uses ++ [key]) oldest other := by
  have hkeys : (s.insert key entry tags).rows.keys = s.rows.keys ++ [key] := keys_append hnew
  have hrecent : Recent (s.insert key entry tags) (uses ++ [key]) := h.recent.use hnew hkeys
  have hrepresents := represents_insert entry tags hnew h.represents
  have hmax : (s.insert key entry tags).maxEntries = bound := h.maxEntries
  have hlength : (s.insert key entry tags).rows.keys.length = s.rows.keys.length + 1 := by
    rw [hkeys, List.length_append, List.length_singleton]
  rcases trim_cases (s.insert key entry tags) with
    ⟨hsame, hbounded⟩ | ⟨hpos, hlt, oldest, rest, holdest, htrim⟩
  · rw [hsame]
    refine ⟨⟨hrepresents, hrecent, hmax, ?_⟩, ⟨_, by rw [get_insert, if_pos rfl], rfl, rfl⟩,
      none, ?_, by rintro oldest ⟨⟩⟩
    · rw [← hmax]
      exact hbounded
    · intro other hother
      rw [get_insert, if_neg hother, if_neg (by rintro ⟨⟩)]
  · rw [hmax] at hpos hlt
    have hfull : s.rows.keys.length = bound := by
      have := h.bounded hpos
      omega
    have hmem : oldest ∈ s.rows.keys := by
      obtain ⟨first, others, hfirst⟩ := List.exists_cons_of_length_pos (hpos.trans_le hfull.ge)
      rw [hfirst, List.cons_append, holdest] at hkeys
      rw [hfirst, (List.cons.inj hkeys).1]
      exact List.mem_cons_self
    have hne : oldest ≠ key := by
      rintro rfl
      exact hnew hmem
    have hrest : (s.insert key entry tags).trim.rows.keys = rest := by
      rw [htrim, rows_evict_eq]
      exact InsertionMap.keys_delete_head holdest
    have hrestlength : rest.length = bound := by
      rw [holdest, List.length_cons] at hlength
      omega
    have hget (other : JSString) : (s.insert key entry tags).trim.rows.get other =
        if other = oldest then none else (s.insert key entry tags).rows.get other := by
      rw [htrim, rows_evict]
    refine ⟨?_, ?_, some oldest, ?_, ?_⟩
    · have htakes : Takes (s.insert key entry tags) (s.insert key entry tags).trim
          fun other _ => other = oldest := by
        rw [htrim]
        exact takes_evict
      constructor
      · exact htakes.represents hrepresents
      · exact hrecent.takes htakes
      · exact htakes.maxEntries.trans hmax
      · rw [hrest, hrestlength]
        exact fun _ => le_rfl
    · rw [hget, if_neg (Ne.symm hne), get_insert, if_pos rfl]
      exact ⟨_, rfl, rfl, rfl⟩
    · intro other hother
      rw [hget, get_insert, if_neg hother]
      simp only [Option.some.injEq, eq_comm]
    · rintro _ ⟨⟩
      refine ⟨hne, hpos, hfull, ?_, ?_⟩
      · rw [InsertionMap.size_eq_length_keys, hrest, hrestlength]
      · rw [hrest]
        have horder := hrecent.order
        rw [holdest] at horder
        exact (List.pairwise_cons.mp horder).1

theorem Kept.set (h : Kept s uses bound) (key : JSString) (entry : StoredEntry V)
    (tags : List JSString) (clock : ℕ → ℤ) :
    Kept (s.setAt key entry tags clock) (uses ++ [key]) bound ∧
      SetSound s uses key entry tags clock (s.setAt key entry tags clock) := by
  have hswept : Takes s (sweepAt clock 8 (s.recordKey key))
      fun _ row => ∃ i, row.expiresAt ≤ clock i := takes_recordKey.trans (takes_sweepAt clock 8 _)
  have hkept : Kept ((sweepAt clock 8 (s.recordKey key)).evict key) uses bound :=
    (h.takes hswept).takes takes_evict
  have hget (other : JSString) (hother : other ≠ key) :
      ((sweepAt clock 8 (s.recordKey key)).evict key).rows.get other =
        (sweepAt clock 8 (s.recordKey key)).rows.get other := by
    rw [rows_evict, if_neg hother]
  obtain ⟨hafter, hwritten, victim, hrows, hvictim⟩ :=
    hkept.insert not_mem_keys_evict entry tags
  have hsublist : ((sweepAt clock 8 (s.recordKey key)).evict key).rows.keys.Sublist s.rows.keys :=
    takes_evict.keys.trans hswept.keys
  refine ⟨hafter, hwritten, ?_, victim, ?_, ?_⟩
  · intro other hother
    rw [setAt, hrows other hother, hget other hother]
    split_ifs
    · exact Or.inr rfl
    · exact (hswept.rows other).imp_right And.left
  · intro other hother row hrow hgone
    rw [setAt, hrows other hother, hget other hother] at hgone
    split_ifs at hgone with heq
    · exact Or.inr heq
    · rcases hswept.rows other with hsame | ⟨-, row', hrow', hexpired⟩
      · rw [hsame, hrow] at hgone
        cases hgone
      · obtain rfl := Option.some.inj (hrow.symm.trans hrow')
        exact Or.inl hexpired
  · intro oldest hmem
    obtain ⟨hne, hpos, hfull, hsize, hbefore⟩ := hvictim oldest hmem
    rw [h.maxEntries]
    refine ⟨hne, ?_, hpos, hsize, hbefore⟩
    by_contra hpresent
    have hin : key ∈ s.rows.keys := by
      by_contra hnot
      exact hpresent (InsertionMap.get_eq_none_iff.mpr hnot)
    have hlt : ((sweepAt clock 8 (s.recordKey key)).evict key).rows.keys.length <
        s.rows.keys.length := by
      apply lt_of_le_of_ne hsublist.length_le
      intro hlength
      have heq := hsublist.eq_of_length hlength
      rw [← heq] at hin
      exact not_mem_keys_evict hin
    have := h.bounded hpos
    omega

theorem takes_evictAll (keys : List JSString) :
    Takes s (keys.foldl evict s) fun key _ => key ∈ keys := by
  induction keys generalizing s with
  | nil => exact .refl
  | cons first keys ih =>
    have hfirst : Takes s (s.evict first) fun key _ => key ∈ first :: keys := by
      apply takes_evict.mono
      rintro key _ rfl
      exact List.mem_cons_self
    exact hfirst.trans (ih.mono fun _ _ hmem => List.mem_cons_of_mem _ hmem)

theorem takes_invalidateTag (s : MemoryCache V) (tag : JSString) :
    Takes s (s.invalidateTag tag) fun key _ => Linked s.tagIndex key tag := by
  have hindex : (s.recordTag tag).tagIndex.get tag = s.tagIndex.get tag := rfl
  cases hget : s.tagIndex.get tag with
  | none =>
    have hsame : s.invalidateTag tag = s.recordTag tag := by
      simp only [invalidateTag, hindex, hget]
    rw [hsame]
    exact takes_recordTag
  | some keys =>
    have hall : s.invalidateTag tag = keys.keys.foldl evict (s.recordTag tag) := by
      simp only [invalidateTag, hindex, hget]
    rw [hall]
    apply takes_recordTag.trans
    apply (takes_evictAll keys.keys).mono
    intro key row hmem
    exact linked_iff.mpr ⟨keys, hget, hmem⟩

theorem get_invalidateTag (h : s.Represents) {row : Row V} (hrow : s.rows.get key = some row) :
    (s.invalidateTag tag).rows.get key = if tag ∈ row.tags then none else some row := by
  have htakes := takes_invalidateTag s tag
  split_ifs with htag
  · cases hleft : (s.invalidateTag tag).rows.get key with
    | none => rfl
    | some left =>
      have hindexed : s.Indexed :=
        fun key row hrow tag htag => (h.linked key tag).mpr ⟨row, hrow, htag⟩
      have hsame : left = row := by
        rcases htakes.rows key with hsame | ⟨hnone, -⟩
        · rw [hsame, hrow] at hleft
          exact (Option.some.inj hleft).symm
        · rw [hnone] at hleft
          cases hleft
      rw [← hsame] at htag
      exact absurd htag (rows_invalidateTag hindexed hleft)
  · rcases htakes.rows key with hsame | ⟨-, -, -, hlinked⟩
    · rw [hsame, hrow]
    · obtain ⟨row', hrow', htag'⟩ := (h.linked key tag).mp hlinked
      obtain rfl := Option.some.inj (hrow.symm.trans hrow')
      exact absurd htag' htag

theorem represents_clear (s : MemoryCache V) : s.clear.Represents where
  linked key tag := by
    constructor
    · rintro ⟨keys, ⟨⟩, -⟩
    · rintro ⟨row, ⟨⟩, -⟩
  filled := by rintro tag keys ⟨⟩

inductive Operation (V : Type)
  | get (key : JSString) (now : ℤ)
  | set (key : JSString) (entry : StoredEntry V) (tags : List JSString) (clock : ℕ → ℤ)
  | delete (key : JSString)
  | invalidateTag (tag : JSString)
  | clear
  | sweep (clock : ℕ → ℤ) (limit : ℕ)

def apply (state : MemoryCache V × List JSString) : Operation V → MemoryCache V × List JSString
  | .get key now =>
    ((state.1.get key now).1, usesAfter state.2 key (state.1.get key now).2)
  | .set key entry tags clock => (state.1.setAt key entry tags clock, state.2 ++ [key])
  | .delete key => (state.1.delete key, state.2)
  | .invalidateTag tag => (state.1.invalidateTag tag, state.2)
  | .clear => (state.1.clear, state.2)
  | .sweep clock limit => (sweepAt clock limit state.1, state.2)

def run (maxEntries : ℕ) (operations : List (Operation V)) : MemoryCache V × List JSString :=
  operations.foldl apply (create maxEntries, [])

def Sound (s : MemoryCache V) (uses : List JSString) (t : MemoryCache V) : Operation V → Prop
  | .get key now => GetSound s uses key now (s.get key now).2 t
    (usesAfter uses key (s.get key now).2)
  | .set key entry tags clock => SetSound s uses key entry tags clock t
  | .delete key => ∀ other, t.rows.get other = if other = key then none else s.rows.get other
  | .invalidateTag tag => ∀ key, (s.rows.get key = none → t.rows.get key = none) ∧
    ∀ row, s.rows.get key = some row → t.rows.get key = if tag ∈ row.tags then none else some row
  | .clear => t.rows = ∅
  | .sweep clock _ => ∀ key, t.rows.get key = s.rows.get key ∨
    t.rows.get key = none ∧ ∃ row i, s.rows.get key = some row ∧ row.expiresAt ≤ clock i

theorem Kept.apply (h : Kept s uses bound) (operation : Operation V) :
    Kept (apply (s, uses) operation).1 (MemoryCache.apply (s, uses) operation).2 bound ∧
      Sound s uses (MemoryCache.apply (s, uses) operation).1 operation := by
  cases operation with
  | get key now => exact h.get key now
  | set key entry tags clock => exact h.set key entry tags clock
  | delete key =>
    refine ⟨h.takes (takes_recordKey.trans takes_evict), fun other => ?_⟩
    exact rows_evict
  | invalidateTag tag =>
    refine ⟨h.takes (takes_invalidateTag s tag), fun key => ⟨fun hnone => ?_, fun row hrow => ?_⟩⟩
    · rcases (takes_invalidateTag s tag).rows key with hsame | ⟨hgone, -⟩
      · exact hsame.trans hnone
      · exact hgone
    · exact get_invalidateTag h.represents hrow
  | clear =>
    refine ⟨⟨represents_clear s, ⟨nofun, .nil⟩, h.maxEntries, fun _ => Nat.zero_le _⟩, rfl⟩
  | sweep clock limit =>
    have htakes := takes_sweepAt clock limit s
    refine ⟨h.takes htakes, fun key => (htakes.rows key).imp_right ?_⟩
    rintro ⟨hnone, row, hrow, i, hexpired⟩
    exact ⟨hnone, row, i, hrow, hexpired⟩

theorem kept_run (bound : ℕ) (operations : List (Operation V)) :
    Kept (run bound operations).1 (run bound operations).2 bound := by
  induction operations using List.reverseRecOn with
  | nil =>
    refine ⟨⟨?_, nofun⟩, ⟨nofun, .nil⟩, rfl, fun _ => Nat.zero_le _⟩
    intro key tag
    constructor
    · rintro ⟨keys, ⟨⟩, -⟩
    · rintro ⟨row, ⟨⟩, -⟩
  | append_singleton operations operation ih =>
    rw [run, List.foldl_append]
    exact (ih.apply operation).1

/-- After every history the index agrees with the rows, a bound holds, and the next operation keeps
to what it says of the rows. -/
theorem run_sound (bound : ℕ) (operations : List (Operation V)) (operation : Operation V) :
    (run bound operations).1.Represents ∧
      (0 < bound → (run bound operations).1.rows.size ≤ bound) ∧
      Sound (run bound operations).1 (run bound operations).2
        (MemoryCache.apply (run bound operations) operation).1 operation := by
  have hkept := kept_run bound operations
  refine ⟨hkept.represents, fun hpos => ?_, (hkept.apply operation).2⟩
  rw [InsertionMap.size_eq_length_keys]
  exact hkept.bounded hpos

/-- A bound of zero is none. -/
theorem run_unbounded :
    ¬ (run 0 [.set (js "a") (⟨(), 1, 2, none⟩ : StoredEntry Unit) [] fun _ => 0]).1.rows.size ≤
      0 := by
  decide

end MemoryCache

end Nifra.Cache
