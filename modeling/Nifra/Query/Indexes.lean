import Mathlib.Data.ENat.Basic
import Nifra.Lib.Runs
import Nifra.Query.Keys

/-! # The query client

A client caches queries and infinite queries by the hash of their key. Beside each cache there is an
index: the hashes by the first part of a key that is an array, so that an invalidation looks at few.
-/

namespace Nifra.Query

open JSON (NumberFormat)

structure QueryEntry (N T : Type) where
  key : QueryKey N
  keyParts : Option (List JSString)
  subscribers : ℤ
  gcAt : Option T
  invalidated : Bool
  generation : ℕ

structure Cache where
  entries : InsertionMap JSString ℕ
  index : InsertionMap JSString (InsertionMap JSString Unit)

inductive CacheKind
  | query
  | infinite
  deriving DecidableEq

/-- The client, with every entry that it ever made, and for every subscription the entry it is to
and whether it is open. -/
structure QueryClient (N T : Type) where
  gcTime : T
  max : ℕ∞
  entries : List (QueryEntry N T)
  cache : Cache
  infinite : Cache
  sweepAt : T
  capSweepPending : Bool
  subscriptions : List (ℕ × Bool)

def firstPart (keyParts : Option (List JSString)) : Option JSString := keyParts.bind List.head?

def addToIndex (index : InsertionMap JSString (InsertionMap JSString Unit))
    (keyParts : Option (List JSString)) (hash : JSString) :
    InsertionMap JSString (InsertionMap JSString Unit) :=
  match firstPart keyParts with
  | none => index
  | some first => index.set first (((index.get first).getD ∅).set hash ())

def removeFromIndex (index : InsertionMap JSString (InsertionMap JSString Unit))
    (keyParts : Option (List JSString)) (hash : JSString) :
    InsertionMap JSString (InsertionMap JSString Unit) :=
  match firstPart keyParts with
  | none => index
  | some first =>
    match index.get first with
    | none => index
    | some hashes =>
      if (hashes.delete hash).size = 0 then index.delete first
      else index.set first (hashes.delete hash)

def indexedCandidates (index : InsertionMap JSString (InsertionMap JSString Unit))
    (prefixParts : Option (List JSString)) : Option (InsertionMap JSString Unit) :=
  (firstPart prefixParts).bind index.get

def Cache.insert (c : Cache) (keyParts : Option (List JSString)) (hash : JSString) (id : ℕ) :
    Cache where
  entries := c.entries.set hash id
  index := addToIndex c.index keyParts hash

def Cache.remove (c : Cache) (keyParts : Option (List JSString)) (hash : JSString) : Cache where
  entries := c.entries.delete hash
  index := removeFromIndex c.index keyParts hash

section
variable {N T : Type}

section Sweep
variable [LinearOrder T] (entries : List (QueryEntry N T))

/-- The first loop of `sweepEntries`: what nobody subscribes to goes when its time has come. -/
def expire (t : T) : List (JSString × ℕ) → Cache → T → Cache × T
  | [], c, next => (c, next)
  | (hash, id) :: rest, c, next =>
    match entries[id]? with
    | none => expire t rest c next
    | some entry =>
      match entry.gcAt with
      | none => expire t rest c next
      | some gcAt =>
        if entry.subscribers ≠ 0 then expire t rest c next
        else if gcAt ≤ t then expire t rest (c.remove entry.keyParts hash) next
        else expire t rest c (min gcAt next)

/-- The second loop: over the cap, what nobody subscribes to goes, the oldest first. -/
def evict (max : ℕ∞) : List (JSString × ℕ) → Cache → Cache
  | [], c => c
  | (hash, id) :: rest, c =>
    if (c.entries.size : ℕ∞) ≤ max then c
    else
      match entries[id]? with
      | none => evict max rest c
      | some entry =>
        if entry.subscribers = 0 then evict max rest (c.remove entry.keyParts hash)
        else evict max rest c

def sweepEntries [OrderTop T] (max : ℕ∞) (t : T) (c : Cache) : Cache × T :=
  let (c, next) := expire entries t c.entries.entries c ⊤
  if (c.entries.size : ℕ∞) ≤ max then (c, next)
  else (evict entries max c.entries.entries c, next)

end Sweep

namespace QueryClient

def create [LE T] [OrderTop T] (gcTime : T) (max : ℕ∞) : QueryClient N T where
  gcTime := gcTime
  max := max
  entries := []
  cache := ⟨∅, ∅⟩
  infinite := ⟨∅, ∅⟩
  sweepAt := ⊤
  capSweepPending := false
  subscriptions := []

def cacheOf (s : QueryClient N T) : CacheKind → Cache
  | .query => s.cache
  | .infinite => s.infinite

def setCache (s : QueryClient N T) : CacheKind → Cache → QueryClient N T
  | .query, c => { s with cache := c }
  | .infinite, c => { s with infinite := c }

def markCapSweep (s : QueryClient N T) (size : ℕ) : QueryClient N T :=
  if s.max < size then { s with capSweepPending := true } else s

section Operations
variable (format : NumberFormat N)

def insert (s : QueryClient N T) (kind : CacheKind) (key : QueryKey N)
    (keyParts : Option (List JSString)) (hash : JSString) : QueryClient N T :=
  let c := (s.cacheOf kind).insert keyParts hash s.entries.length
  let entry : QueryEntry N T := ⟨key, keyParts, 0, none, false, 0⟩
  ({ s with entries := s.entries ++ [entry] }.setCache kind c).markCapSweep c.entries.size

/-- The entry under a key, made if there is none, unless the key throws. -/
def upsert (s : QueryClient N T) (kind : CacheKind) (key : QueryKey N) :
    Option (ℕ × QueryClient N T) := do
  let hash ← hashQueryKey format key.value
  match (s.cacheOf kind).entries.get hash with
  | some id => some (id, s)
  | none =>
    let keyParts ← hashQueryKeyParts format key.value
    some (s.entries.length, s.insert kind key keyParts hash)

def setQueryData (s : QueryClient N T) (key : QueryKey N) : QueryClient N T :=
  match s.upsert format .query key with
  | none => s
  | some (id, s) =>
    { s with
      entries := s.entries.modify id fun entry =>
        { entry with generation := entry.generation + 1, invalidated := false } }

def hydrate (s : QueryClient N T) (key : QueryKey N) : QueryClient N T :=
  match s.upsert format .query key with
  | none => s
  | some (_, s) => s

def subscribe (s : QueryClient N T) (id : ℕ) : QueryClient N T :=
  { s with
    entries := s.entries.modify id fun entry =>
      { entry with subscribers := entry.subscribers + 1, gcAt := none }
    subscriptions := s.subscriptions ++ [(id, true)] }

/-- The mark: the next fetch fetches, and one begun before is superseded. -/
def invalidateEntry (s : QueryClient N T) (id : ℕ) : QueryClient N T :=
  { s with
    entries := s.entries.modify id fun entry =>
      { entry with invalidated := true, generation := entry.generation + 1 } }

def invalidateCache (kind : CacheKind) (prefixHash : JSString)
    (prefixParts : Option (List JSString)) (s : QueryClient N T) (hash : JSString) :
    QueryClient N T :=
  match (s.cacheOf kind).entries.get hash with
  | none => s
  | some id =>
    match s.entries[id]? with
    | none => s
    | some entry =>
      if keyMatchesPrefix hash entry.keyParts prefixHash prefixParts then s.invalidateEntry id
      else s

def invalidateAll (s : QueryClient N T) (kind : CacheKind) (prefixHash : JSString)
    (prefixParts : Option (List JSString)) : QueryClient N T :=
  match indexedCandidates (s.cacheOf kind).index prefixParts with
  | none => (s.cacheOf kind).entries.keys.foldl (invalidateCache kind prefixHash prefixParts) s
  | some hashes => hashes.keys.foldl (invalidateCache kind prefixHash prefixParts) s

def invalidateExact (s : QueryClient N T) (kind : CacheKind) (hash : JSString) : QueryClient N T :=
  match (s.cacheOf kind).entries.get hash with
  | none => s
  | some id => s.invalidateEntry id

def invalidateQueries (s : QueryClient N T) (keyOrPrefix : QueryKey N) : QueryClient N T :=
  match hashQueryKey format keyOrPrefix.value, hashQueryKeyParts format keyOrPrefix.value with
  | some prefixHash, some none =>
    (s.invalidateExact .query prefixHash).invalidateExact .infinite prefixHash
  | some prefixHash, some prefixParts =>
    (s.invalidateAll .query prefixHash prefixParts).invalidateAll .infinite prefixHash prefixParts
  | _, _ => s

end Operations

section Timed
variable [LinearOrder T] [OrderTop T]

def sweepDue (s : QueryClient N T) (t : T) : Bool := s.capSweepPending || decide (s.sweepAt ≤ t)

def sweep (s : QueryClient N T) (t : T) : QueryClient N T :=
  { s with
    cache := (sweepEntries s.entries s.max t s.cache).1
    infinite := (sweepEntries s.entries s.max t s.infinite).1
    sweepAt := min (sweepEntries s.entries s.max t s.cache).2
      (sweepEntries s.entries s.max t s.infinite).2
    capSweepPending := false }

/-- `query` and `prefetchQuery`, and `infiniteQuery`: a sweep may come first. -/
def query (format : NumberFormat N) (s : QueryClient N T) (kind : CacheKind) (key : QueryKey N)
    (due sweptAt : T) : QueryClient N T :=
  let s := if s.sweepDue due then s.sweep sweptAt else s
  match s.upsert format kind key with
  | none => s
  | some (_, s) => s

variable [Add T]

def scheduleGc (s : QueryClient N T) (id : ℕ) (t : T) : QueryClient N T :=
  { s with
    entries := s.entries.modify id fun entry => { entry with gcAt := some (t + s.gcTime) }
    capSweepPending := s.capSweepPending ||
      decide (s.max < s.cache.entries.size ∨ s.max < s.infinite.entries.size)
    sweepAt := min s.sweepAt (t + s.gcTime) }

def unsubscribe (s : QueryClient N T) (i : ℕ) (id : ℕ) (t : T) : QueryClient N T :=
  let s := { s with
    entries := s.entries.modify id fun entry =>
      { entry with subscribers := entry.subscribers - 1 }
    subscriptions := s.subscriptions.set i (id, false) }
  match s.entries[id]? with
  | none => s
  | some entry => if entry.subscribers = 0 then s.scheduleGc id t else s

end Timed

end QueryClient

/-- What may happen to a client. `touched` is what a fetch, or a change of the visitor, does to an
entry. -/
inductive ClientEvent (N T : Type)
  | query (kind : CacheKind) (key : QueryKey N) (due sweptAt : T)
  | setQueryData (key : QueryKey N)
  | hydrate (key : QueryKey N)
  | subscribe (id : ℕ)
  | unsubscribe (i : ℕ) (t : T)
  | invalidateQueries (keyOrPrefix : QueryKey N)
  | touched (id : ℕ) (invalidated : Bool) (generation : ℕ)

def clientStep [LinearOrder T] [OrderTop T] [Add T] (format : NumberFormat N)
    (s : QueryClient N T) : ClientEvent N T → Option (QueryClient N T)
  | .query kind key due sweptAt => some (s.query format kind key due sweptAt)
  | .setQueryData key => some (s.setQueryData format key)
  | .hydrate key => some (s.hydrate format key)
  | .subscribe id => if id < s.entries.length then some (s.subscribe id) else none
  | .unsubscribe i t =>
    match s.subscriptions[i]? with
    | none => none
    | some (id, _) => some (s.unsubscribe i id t)
  | .invalidateQueries keyOrPrefix => some (s.invalidateQueries format keyOrPrefix)
  | .touched id invalidated generation =>
    some { s with
      entries := s.entries.modify id fun entry =>
        { entry with invalidated := invalidated, generation := generation } }

end

/-! ## The indexes of the caches

Each index holds the hashes of the entries under the first parts of their keys, and a sweep leaves
what is subscribed to, and of the rest what is young enough.
-/

open QueryClient

variable {N T : Type} {format : NumberFormat N}

section Index
variable {index : InsertionMap JSString (InsertionMap JSString Unit)}
  {keyParts : Option (List JSString)} {first hash other : JSString}

def Listed (index : InsertionMap JSString (InsertionMap JSString Unit)) (first hash : JSString) :
    Prop :=
  ∃ hashes, index.get first = some hashes ∧ hash ∈ hashes.keys

def NoEmptySet (index : InsertionMap JSString (InsertionMap JSString Unit)) : Prop :=
  ∀ first hashes, index.get first = some hashes → hashes.keys ≠ []

theorem listed_addToIndex : Listed (addToIndex index keyParts hash) first other ↔
    Listed index first other ∨ firstPart keyParts = some first ∧ other = hash := by
  unfold addToIndex
  split
  · rename_i hnone
    simp [hnone]
  · rename_i part hpart
    simp only [Listed, InsertionMap.get_set, hpart, Option.some.injEq]
    by_cases hfirst : first = part
    · subst hfirst
      simp only [if_pos, Option.some.injEq, exists_eq_left', InsertionMap.mem_keys_set, true_and]
      cases hget : index.get first with
      | none => simp [InsertionMap.keys, EmptyCollection.emptyCollection, InsertionMap.empty]
      | some hashes => simp [or_comm]
    · simp [hfirst, Ne.symm hfirst]

theorem NoEmptySet.addToIndex (h : NoEmptySet index) :
    NoEmptySet (addToIndex index keyParts hash) := by
  unfold Query.addToIndex
  split
  · exact h
  · intro first hashes hget
    rw [InsertionMap.get_set] at hget
    split_ifs at hget
    · obtain rfl := Option.some.inj hget
      exact List.ne_nil_of_mem (InsertionMap.mem_keys_set.mpr (Or.inl rfl))
    · exact h first hashes hget

theorem listed_removeFromIndex : Listed (removeFromIndex index keyParts hash) first other ↔
    Listed index first other ∧ ¬ (firstPart keyParts = some first ∧ other = hash) := by
  unfold removeFromIndex
  split
  · rename_i hnone
    simp [hnone]
  · rename_i part hpart
    split
    · rename_i hget
      constructor
      · rintro ⟨hashes, hhashes, hmem⟩
        refine ⟨⟨hashes, hhashes, hmem⟩, ?_⟩
        rintro ⟨hfirst, -⟩
        obtain rfl := Option.some.inj (hpart.symm.trans hfirst)
        rw [hget] at hhashes
        cases hhashes
      · exact And.left
    · rename_i hashes hget
      have hmem : other ∈ (hashes.delete hash).keys ↔ other ∈ hashes.keys ∧ other ≠ hash := by
        rw [InsertionMap.mem_keys_delete, and_comm]
      split_ifs with hempty
      · have hnil : (hashes.delete hash).keys = [] := InsertionMap.keys_eq_nil_iff.mpr hempty
        rw [hnil] at hmem
        simp only [Listed, InsertionMap.get_delete, hpart, Option.some.injEq]
        by_cases hfirst : first = part
        · subst hfirst
          simp only [if_pos, hget, Option.some.injEq, exists_eq_left', true_and]
          simpa using hmem
        · simp [hfirst, Ne.symm hfirst]
      · simp only [Listed, InsertionMap.get_set, hpart, Option.some.injEq]
        by_cases hfirst : first = part
        · subst hfirst
          simp only [if_pos, hget, Option.some.injEq, exists_eq_left', true_and]
          exact hmem
        · simp [hfirst, Ne.symm hfirst]

theorem NoEmptySet.removeFromIndex (h : NoEmptySet index) :
    NoEmptySet (removeFromIndex index keyParts hash) := by
  unfold Query.removeFromIndex
  split
  · exact h
  · split
    · exact h
    · split_ifs with hempty
      · intro first hashes hget
        rw [InsertionMap.get_delete] at hget
        split_ifs at hget
        exact h first hashes hget
      · intro first hashes hget
        rw [InsertionMap.get_set] at hget
        split_ifs at hget
        · obtain rfl := Option.some.inj hget
          exact fun hnil => hempty (InsertionMap.keys_eq_nil_iff.mp hnil)
        · exact h first hashes hget

end Index

/-- A cache and its index over the entries: what is cached is known, under its hash, and the index
holds exactly the hashes of what is cached. -/
structure Cache.Indexed (format : NumberFormat N) (entries : List (QueryEntry N T)) (c : Cache) :
    Prop where
  held : ∀ hash id, c.entries.get hash = some id → ∃ entry, entries[id]? = some entry ∧
    hashQueryKey format entry.key.value = some hash ∧
    hashQueryKeyParts format entry.key.value = some entry.keyParts
  listed : ∀ first hash, Listed c.index first hash ↔ ∃ id entry, c.entries.get hash = some id ∧
    entries[id]? = some entry ∧ firstPart entry.keyParts = some first
  noEmptySet : NoEmptySet c.index

section Cache
variable {entries entries' : List (QueryEntry N T)} {c : Cache}

theorem indexed_empty : (⟨∅, ∅⟩ : Cache).Indexed format entries where
  held _ _ := nofun
  listed first hash := by
    constructor
    · rintro ⟨_, hget, _⟩
      cases hget
    · rintro ⟨_, _, hget, _⟩
      cases hget
  noEmptySet _ _ := nofun

def SameKeys (entries entries' : List (QueryEntry N T)) : Prop :=
  ∀ (id : ℕ) entry, entries[id]? = some entry → ∃ entry', entries'[id]? = some entry' ∧
    entry'.key = entry.key ∧ entry'.keyParts = entry.keyParts

theorem Cache.Indexed.sameKeys (h : c.Indexed format entries) (hsame : SameKeys entries entries') :
    c.Indexed format entries' where
  held hash id hget := by
    obtain ⟨entry, hentry, hhash, hparts⟩ := h.held hash id hget
    obtain ⟨entry', hentry', hkey, hkeyParts⟩ := hsame id entry hentry
    exact ⟨entry', hentry', hkey ▸ hhash, hkey ▸ hkeyParts ▸ hparts⟩
  listed first hash := by
    rw [h.listed]
    constructor
    · rintro ⟨id, entry, hget, hentry, hfirst⟩
      obtain ⟨entry', hentry', -, hkeyParts⟩ := hsame id entry hentry
      exact ⟨id, entry', hget, hentry', hkeyParts ▸ hfirst⟩
    · rintro ⟨id, entry', hget, hentry', hfirst⟩
      obtain ⟨entry, hentry, -⟩ := h.held hash id hget
      obtain ⟨other, hother, -, hkeyParts⟩ := hsame id entry hentry
      obtain rfl := Option.some.inj (hentry'.symm.trans hother)
      exact ⟨id, entry, hget, hentry, hkeyParts ▸ hfirst⟩
  noEmptySet := h.noEmptySet

theorem sameKeys_modify (id : ℕ) {f : QueryEntry N T → QueryEntry N T}
    (hkey : ∀ entry, (f entry).key = entry.key)
    (hparts : ∀ entry, (f entry).keyParts = entry.keyParts) :
    SameKeys entries (entries.modify id f) := by
  intro i entry hentry
  rw [List.getElem?_modify, hentry]
  by_cases hi : id = i
  · exact ⟨f entry, by simp [hi], hkey entry, hparts entry⟩
  · exact ⟨entry, by simp [hi], rfl, rfl⟩

theorem sameKeys_append (rest : List (QueryEntry N T)) : SameKeys entries (entries ++ rest) := by
  intro id entry hentry
  have hlt : id < entries.length := (List.getElem?_eq_some_iff.mp hentry).1
  exact ⟨entry, by rw [List.getElem?_append_left hlt, hentry], rfl, rfl⟩

theorem Cache.Indexed.insert (h : c.Indexed format entries) {entry : QueryEntry N T}
    {hash : JSString} (hfresh : c.entries.get hash = none)
    (hhash : hashQueryKey format entry.key.value = some hash)
    (hparts : hashQueryKeyParts format entry.key.value = some entry.keyParts) :
    (c.insert entry.keyParts hash entries.length).Indexed format (entries ++ [entry]) := by
  have hold := h.sameKeys (sameKeys_append [entry])
  have hnew : (entries ++ [entry])[entries.length]? = some entry := by simp
  constructor
  case held =>
    intro other id hget
    rw [Cache.insert, InsertionMap.get_set] at hget
    split_ifs at hget with heq
    · obtain rfl := Option.some.inj hget
      exact ⟨entry, hnew, heq ▸ hhash, hparts⟩
    · exact hold.held other id hget
  case listed =>
    intro first other
    rw [Cache.insert, listed_addToIndex, hold.listed]
    simp only [InsertionMap.get_set]
    constructor
    · rintro (⟨id, e, hget, he, hfirst⟩ | ⟨hfirst, rfl⟩)
      · have hne : other ≠ hash := by
          rintro rfl
          rw [hfresh] at hget
          cases hget
        exact ⟨id, e, by rw [if_neg hne, hget], he, hfirst⟩
      · exact ⟨_, entry, if_pos rfl, hnew, hfirst⟩
    · rintro ⟨id, e, hget, he, hfirst⟩
      split_ifs at hget with heq
      · obtain rfl := Option.some.inj hget
        obtain rfl := Option.some.inj (hnew.symm.trans he)
        exact Or.inr ⟨hfirst, heq⟩
      · exact Or.inl ⟨id, e, hget, he, hfirst⟩
  case noEmptySet => exact h.noEmptySet.addToIndex

theorem Cache.Indexed.remove (h : c.Indexed format entries) {hash : JSString} {id : ℕ}
    {entry : QueryEntry N T} (hget : c.entries.get hash = some id)
    (hentry : entries[id]? = some entry) :
    (c.remove entry.keyParts hash).Indexed format entries := by
  constructor
  case held =>
    intro other i hother
    rw [Cache.remove, InsertionMap.get_delete] at hother
    split_ifs at hother
    exact h.held other i hother
  case listed =>
    intro first other
    rw [Cache.remove, listed_removeFromIndex, h.listed]
    simp only [InsertionMap.get_delete]
    constructor
    · rintro ⟨⟨i, e, hi, he, hfirst⟩, hkept⟩
      have hne : other ≠ hash := by
        rintro rfl
        obtain rfl := Option.some.inj (hget.symm.trans hi)
        obtain rfl := Option.some.inj (hentry.symm.trans he)
        exact hkept ⟨hfirst, rfl⟩
      exact ⟨i, e, by rw [if_neg hne, hi], he, hfirst⟩
    · rintro ⟨i, e, hi, he, hfirst⟩
      split_ifs at hi with heq
      exact ⟨⟨i, e, hi, he, hfirst⟩, fun hsame => heq hsame.2⟩
  case noEmptySet => exact h.noEmptySet.removeFromIndex

end Cache

section Sweep
variable {entries : List (QueryEntry N T)} {c : Cache}

def idle (entries : List (QueryEntry N T)) (id : ℕ) : Bool :=
  entries[id]?.any fun entry => decide (entry.subscribers = 0)

def expired [LinearOrder T] (entries : List (QueryEntry N T)) (t : T) (id : ℕ) : Bool :=
  entries[id]?.any fun entry =>
    decide (entry.subscribers = 0) && entry.gcAt.any fun gcAt => decide (gcAt ≤ t)

/-- What is left of a cache: not what has expired, and of the front of the rest not what is idle,
which went because there were more than `max` left. -/
def Swept (max : ℕ∞) (expired idle : ℕ → Bool) (c c' : Cache) : Prop :=
  ∃ front back, (c.entries.entries.filter fun e => !expired e.2) = front ++ back ∧
    c'.entries.entries = (front.filter fun e => !idle e.2) ++ back ∧
    ((∃ e ∈ front, idle e.2 = true) → max ≤ c'.entries.size)

theorem evict_spec (max : ℕ∞) {kept rest : List (JSString × ℕ)} (h : c.Indexed format entries)
    (hentries : c.entries.entries = kept ++ rest) :
    (evict entries max rest c).Indexed format entries ∧ ∃ front back, rest = front ++ back ∧
      (evict entries max rest c).entries.entries =
        kept ++ (front.filter fun e => !idle entries e.2) ++ back ∧
      ((∃ e ∈ front, idle entries e.2 = true) →
        max ≤ (evict entries max rest c).entries.size) := by
  induction rest generalizing c kept with
  | nil => exact ⟨h, [], [], rfl, by simpa [evict] using hentries, nofun⟩
  | cons head rest ih =>
    obtain ⟨hash, id⟩ := head
    have hkeep (hkept : idle entries id = false) :
        (evict entries max rest c).Indexed format entries ∧ ∃ front back,
          (hash, id) :: rest = front ++ back ∧ (evict entries max rest c).entries.entries =
            kept ++ (front.filter fun e => !idle entries e.2) ++ back ∧
          ((∃ e ∈ front, idle entries e.2 = true) →
            max ≤ (evict entries max rest c).entries.size) := by
      obtain ⟨hindexed, front, back, rfl, hleft, hmax⟩ :=
        ih h (hentries.trans (List.append_cons ..))
      refine ⟨hindexed, (hash, id) :: front, back, rfl, ?_, ?_⟩
      · rw [hleft, List.filter_cons_of_pos (by rw [hkept]; rfl)]
        simp
      · rintro ⟨e, he, hidle⟩
        rcases List.mem_cons.mp he with rfl | he
        · rw [hkept] at hidle
          cases hidle
        · exact hmax ⟨e, he, hidle⟩
    rw [evict]
    split_ifs with hfits
    · exact ⟨h, [], _, rfl, by simpa using hentries, nofun⟩
    · split
      · rename_i hnone
        exact hkeep (by rw [idle, hnone]; rfl)
      · rename_i entry hentry
        split_ifs with hzero
        · have hget := InsertionMap.get_of_entries_append hentries
          have hdelete := InsertionMap.entries_delete_append hentries
          obtain ⟨hindexed, front, back, rfl, hleft, hmax⟩ :=
            ih (h.remove hget hentry) hdelete
          have hgone : idle entries id = true := by simp [idle, hentry, hzero]
          refine ⟨hindexed, (hash, id) :: front, back, rfl, ?_, fun _ => ?_⟩
          · rw [hleft, List.filter_cons_of_neg (by simp [hgone])]
          · by_cases hmore : ∃ e ∈ front, idle entries e.2 = true
            · exact hmax hmore
            · have hall : front.filter (fun e => !idle entries e.2) = front := by
                rw [List.filter_eq_self]
                intro e he
                simpa using fun hidle => hmore ⟨e, he, hidle⟩
              rw [hall] at hleft
              have hsize : c.entries.size = (evict entries max (front ++ back)
                  (c.remove entry.keyParts hash)).entries.size + 1 := by
                simp only [InsertionMap.size, hleft, hentries, List.length_append,
                  List.length_cons]
                omega
              rw [hsize, not_le, Nat.cast_add, Nat.cast_one] at hfits
              exact (ENat.lt_add_one_iff (ENat.natCast_ne_top _)).mp hfits
        · exact hkeep (by simp [idle, hentry, hzero])

variable [LinearOrder T]

theorem expire_spec (t : T) {kept rest : List (JSString × ℕ)} (next : T)
    (h : c.Indexed format entries) (hentries : c.entries.entries = kept ++ rest) :
    (expire entries t rest c next).1.Indexed format entries ∧
      (expire entries t rest c next).1.entries.entries =
        kept ++ rest.filter fun e => !expired entries t e.2 := by
  induction rest generalizing c kept next with
  | nil => exact ⟨h, hentries⟩
  | cons head rest ih =>
    obtain ⟨hash, id⟩ := head
    have hkeep (hkept : expired entries t id = false) (next : T) :
        (expire entries t rest c next).1.Indexed format entries ∧
          (expire entries t rest c next).1.entries.entries =
            kept ++ ((hash, id) :: rest).filter fun e => !expired entries t e.2 := by
      rw [List.filter_cons_of_pos (by rw [hkept]; rfl), List.append_cons]
      exact ih next h (by rw [hentries, List.append_cons])
    rw [expire]
    split
    · rename_i hnone
      exact hkeep (by rw [expired, hnone]; rfl) next
    · rename_i entry hentry
      split
      · rename_i hgcAt
        exact hkeep (by simp [expired, hentry, hgcAt]) next
      · rename_i gcAt hgcAt
        split_ifs with hsubscribed hdue
        · exact hkeep (by simp [expired, hentry, hsubscribed]) next
        · have hgone : expired entries t id = true := by
            simp [expired, hentry, hgcAt, not_not.mp hsubscribed, hdue]
          rw [List.filter_cons_of_neg (by simp [hgone])]
          refine ih next (h.remove (InsertionMap.get_of_entries_append hentries) hentry) ?_
          exact InsertionMap.entries_delete_append hentries
        · exact hkeep (by simp [expired, hentry, hgcAt, not_le.mp hdue]) _

theorem sweepEntries_spec [OrderTop T] (h : c.Indexed format entries) (max : ℕ∞) (t : T) :
    (sweepEntries entries max t c).1.Indexed format entries ∧
      Swept max (expired entries t) (idle entries) c (sweepEntries entries max t c).1 := by
  obtain ⟨hindexed, hleft⟩ := expire_spec t ⊤ h (List.nil_append _).symm
  rw [List.nil_append] at hleft
  unfold sweepEntries
  generalize expire entries t c.entries.entries c ⊤ = left at hindexed hleft
  obtain ⟨left, next⟩ := left
  dsimp only
  split_ifs with hfits
  · exact ⟨hindexed, [], _, rfl, by simpa using hleft, nofun⟩
  · obtain ⟨hevicted, front, back, hsplit, hrest, hmax⟩ :=
      evict_spec max hindexed (List.nil_append _).symm
    rw [List.nil_append] at hrest
    exact ⟨hevicted, front, back, hleft.symm.trans hsplit, hrest, hmax⟩

end Sweep

end Nifra.Query
