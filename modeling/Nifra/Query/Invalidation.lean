import Nifra.Query.Indexes

/-! # What an invalidation marks

An invalidation through the indexes marks what a scan of the caches would mark, but for a key that
is no array and that JSON makes an array.
-/

namespace Nifra.Query

open JSON (NumberFormat)
open QueryClient

variable {N T : Type} {format : NumberFormat N}

def QueryEntry.mark (entry : QueryEntry N T) : QueryEntry N T :=
  { entry with invalidated := true, generation := entry.generation + 1 }

/-- The entries that meet the condition are marked, and nothing else happens. -/
structure Marked (s t : QueryClient N T) (P : ℕ → QueryEntry N T → Prop) : Prop where
  rest : t = { s with entries := t.entries }
  length : t.entries.length = s.entries.length
  marked : ∀ id entry, s.entries[id]? = some entry → P id entry → t.entries[id]? = some entry.mark
  kept : ∀ id entry, s.entries[id]? = some entry → ¬ P id entry → t.entries[id]? = some entry

variable {s t u : QueryClient N T} {P Q : ℕ → QueryEntry N T → Prop}

theorem marked_none (h : ∀ id entry, s.entries[id]? = some entry → ¬ P id entry) :
    Marked s s P where
  rest := rfl
  length := rfl
  marked id entry hentry hP := (h id entry hentry hP).elim
  kept _ _ hentry _ := hentry

theorem marked_invalidateEntry {id : ℕ}
    (h : ∀ i entry, s.entries[i]? = some entry → (P i entry ↔ i = id)) :
    Marked s (s.invalidateEntry id) P where
  rest := rfl
  length := List.length_modify ..
  marked i entry hentry hP := by
    obtain rfl := (h i entry hentry).mp hP
    rw [invalidateEntry, List.getElem?_modify, hentry]
    simp [QueryEntry.mark]
  kept i entry hentry hP := by
    have hne : id ≠ i := fun heq => hP ((h i entry hentry).mpr heq.symm)
    rw [invalidateEntry, List.getElem?_modify, hentry]
    simp [hne]

theorem Marked.cacheOf (h : Marked s t P) (kind : CacheKind) : t.cacheOf kind = s.cacheOf kind := by
  rw [h.rest]
  cases kind <;> rfl

theorem Marked.congr (h : Marked s t P)
    (hiff : ∀ id entry, s.entries[id]? = some entry → (P id entry ↔ Q id entry)) :
    Marked s t Q where
  rest := h.rest
  length := h.length
  marked id entry hentry hQ := h.marked id entry hentry ((hiff id entry hentry).mpr hQ)
  kept id entry hentry hQ := h.kept id entry hentry fun hP => hQ ((hiff id entry hentry).mp hP)

theorem Marked.trans (h : Marked s t P) (h' : Marked t u Q)
    (honce : ∀ id entry, s.entries[id]? = some entry → P id entry → ¬ Q id entry.mark) :
    Marked s u fun id entry => P id entry ∨ Q id entry where
  rest := by
    rw [h'.rest, h.rest]
  length := h'.length.trans h.length
  marked id entry hentry hPQ := by
    by_cases hP : P id entry
    · exact h'.kept id _ (h.marked id entry hentry hP) (honce id entry hentry hP)
    · exact h'.marked id _ (h.kept id entry hentry hP) (hPQ.resolve_left hP)
  kept id entry hentry hPQ :=
    h'.kept id _ (h.kept id entry hentry fun hP => hPQ (Or.inl hP)) fun hQ => hPQ (Or.inr hQ)

/-- Both indexes hold what they should, and no entry is in both caches. -/
structure QueryClient.Sound (format : NumberFormat N) (s : QueryClient N T) : Prop where
  indexed : ∀ kind, (s.cacheOf kind).Indexed format s.entries
  owner : ∀ kind kind' hash hash' id, (s.cacheOf kind).entries.get hash = some id →
    (s.cacheOf kind').entries.get hash' = some id → kind = kind'

theorem Cache.Indexed.hash_inj {entries : List (QueryEntry N T)} {c : Cache}
    (h : c.Indexed format entries) {hash hash' : JSString} {id : ℕ}
    (hget : c.entries.get hash = some id) (hget' : c.entries.get hash' = some id) :
    hash = hash' := by
  obtain ⟨entry, hentry, hhash, -⟩ := h.held hash id hget
  obtain ⟨entry', hentry', hhash', -⟩ := h.held hash' id hget'
  obtain rfl := Option.some.inj (hentry.symm.trans hentry')
  exact Option.some.inj (hhash.symm.trans hhash')

/-- An entry that the loop meets: it is cached under one of the hashes, and its key matches. -/
def Met (s : QueryClient N T) (kind : CacheKind) (prefixHash : JSString)
    (prefixParts : Option (List JSString)) (hashes : List JSString) (id : ℕ)
    (entry : QueryEntry N T) : Prop :=
  ∃ hash ∈ hashes, (s.cacheOf kind).entries.get hash = some id ∧
    keyMatchesPrefix hash entry.keyParts prefixHash prefixParts = true

theorem marked_invalidateCache (h : s.Sound format) (kind : CacheKind) (prefixHash : JSString)
    (prefixParts : Option (List JSString)) (hash : JSString) :
    Marked s (invalidateCache kind prefixHash prefixParts s hash)
      (Met s kind prefixHash prefixParts [hash]) := by
  unfold invalidateCache
  split
  · rename_i hnone
    refine marked_none fun id entry _ => ?_
    rintro ⟨_, hmem, hget, -⟩
    rw [List.mem_singleton.mp hmem, hnone] at hget
    cases hget
  · rename_i id hget
    obtain ⟨entry, hentry, -, -⟩ := (h.indexed kind).held hash id hget
    have hmet {i : ℕ} {e : QueryEntry N T} (he : s.entries[i]? = some e) :
        Met s kind prefixHash prefixParts [hash] i e ↔
          i = id ∧ keyMatchesPrefix hash entry.keyParts prefixHash prefixParts = true := by
      constructor
      · rintro ⟨_, hmem, hi, hmatch⟩
        rw [List.mem_singleton.mp hmem] at hi hmatch
        obtain rfl := Option.some.inj (hget.symm.trans hi)
        obtain rfl := Option.some.inj (hentry.symm.trans he)
        exact ⟨rfl, hmatch⟩
      · rintro ⟨rfl, hmatch⟩
        obtain rfl := Option.some.inj (hentry.symm.trans he)
        exact ⟨hash, List.mem_singleton_self _, hget, hmatch⟩
    simp only [hentry]
    split_ifs with hmatch
    · exact marked_invalidateEntry fun i e he => (hmet he).trans (and_iff_left hmatch)
    · exact marked_none fun i e he hmeets => hmatch ((hmet he).mp hmeets).2

theorem sameKeys_of_marked (h : Marked s t P) : SameKeys s.entries t.entries := by
  intro id entry hentry
  by_cases hP : P id entry
  · exact ⟨entry.mark, h.marked id entry hentry hP, rfl, rfl⟩
  · exact ⟨entry, h.kept id entry hentry hP, rfl, rfl⟩

theorem QueryClient.Sound.of_sameKeys (h : s.Sound format)
    (hcaches : ∀ kind, t.cacheOf kind = s.cacheOf kind)
    (hsame : SameKeys s.entries t.entries) : t.Sound format where
  indexed kind := by
    rw [hcaches kind]
    exact (h.indexed kind).sameKeys hsame
  owner kind kind' hash hash' id hget hget' := by
    rw [hcaches] at hget hget'
    exact h.owner kind kind' hash hash' id hget hget'

theorem QueryClient.Sound.marked (h : s.Sound format) (hmarked : Marked s t P) : t.Sound format :=
  h.of_sameKeys hmarked.cacheOf (sameKeys_of_marked hmarked)

theorem marked_foldl (h : s.Sound format) (kind : CacheKind) (prefixHash : JSString)
    (prefixParts : Option (List JSString)) {hashes : List JSString} (hnodup : hashes.Nodup) :
    Marked s (hashes.foldl (invalidateCache kind prefixHash prefixParts) s)
      (Met s kind prefixHash prefixParts hashes) := by
  induction hashes generalizing s with
  | nil => exact marked_none fun id entry _ => by rintro ⟨_, hmem, -⟩; cases hmem
  | cons hash hashes ih =>
    rw [List.nodup_cons] at hnodup
    have hhead := marked_invalidateCache h kind prefixHash prefixParts hash
    have htail := ih (h.marked hhead) hnodup.2
    have hcache := hhead.cacheOf kind
    rw [List.foldl_cons]
    refine (hhead.trans htail ?_).congr fun id entry _ => ?_
    · rintro id entry - ⟨_, hmem, hget, -⟩ ⟨other, hother, hgetOther, -⟩
      rw [List.mem_singleton.mp hmem] at hget
      rw [hcache] at hgetOther
      exact hnodup.1 ((h.indexed kind).hash_inj hget hgetOther ▸ hother)
    · simp only [Met, hcache, List.mem_cons, List.not_mem_nil, or_false, exists_eq_or_imp,
        exists_eq_left]

theorem invalidateExact_eq (h : s.Sound format) (kind : CacheKind) (hash : JSString) :
    s.invalidateExact kind hash = invalidateCache kind hash none s hash := by
  unfold invalidateExact invalidateCache
  split
  · rfl
  · rename_i id hget
    obtain ⟨entry, hentry, -⟩ := (h.indexed kind).held hash id hget
    simp [hentry, keyMatchesPrefix]

def visited (s : QueryClient N T) (kind : CacheKind) (prefixHash : JSString)
    (prefixParts : Option (List JSString)) : List JSString :=
  match prefixParts with
  | none => [prefixHash]
  | some _ =>
    match indexedCandidates (s.cacheOf kind).index prefixParts with
    | none => (s.cacheOf kind).entries.keys
    | some hashes => hashes.keys

def invalidateKind (s : QueryClient N T) (kind : CacheKind) (prefixHash : JSString)
    (prefixParts : Option (List JSString)) : QueryClient N T :=
  match prefixParts with
  | none => s.invalidateExact kind prefixHash
  | some _ => s.invalidateAll kind prefixHash prefixParts

theorem marked_invalidateKind (h : s.Sound format) (kind : CacheKind) (prefixHash : JSString)
    (prefixParts : Option (List JSString)) :
    Marked s (invalidateKind s kind prefixHash prefixParts)
      (Met s kind prefixHash prefixParts (visited s kind prefixHash prefixParts)) := by
  unfold invalidateKind visited
  split
  · rw [invalidateExact_eq h]
    exact marked_invalidateCache h kind prefixHash none prefixHash
  · rename_i parts
    simp only [invalidateAll]
    cases indexedCandidates (s.cacheOf kind).index (some parts) with
    | none => exact marked_foldl h kind prefixHash _ (s.cacheOf kind).entries.nodup
    | some hashes => exact marked_foldl h kind prefixHash _ hashes.nodup

theorem invalidateQueries_eq {keyOrPrefix : QueryKey N} {prefixHash : JSString}
    {prefixParts : Option (List JSString)}
    (hhash : hashQueryKey format keyOrPrefix.value = some prefixHash)
    (hparts : hashQueryKeyParts format keyOrPrefix.value = some prefixParts) :
    s.invalidateQueries format keyOrPrefix =
      invalidateKind (invalidateKind s .query prefixHash prefixParts) .infinite prefixHash
        prefixParts := by
  unfold invalidateQueries
  rw [hhash, hparts]
  cases prefixParts <;> rfl

theorem marked_invalidateQueries (h : s.Sound format) {keyOrPrefix : QueryKey N}
    {prefixHash : JSString} {prefixParts : Option (List JSString)}
    (hhash : hashQueryKey format keyOrPrefix.value = some prefixHash)
    (hparts : hashQueryKeyParts format keyOrPrefix.value = some prefixParts) :
    Marked s (s.invalidateQueries format keyOrPrefix) fun id entry =>
      ∃ kind,
        Met s kind prefixHash prefixParts (visited s kind prefixHash prefixParts) id entry := by
  rw [invalidateQueries_eq hhash hparts]
  have hquery := marked_invalidateKind h .query prefixHash prefixParts
  have hinfinite := marked_invalidateKind (h.marked hquery) .infinite prefixHash prefixParts
  have hcache := hquery.cacheOf .infinite
  refine (hquery.trans hinfinite ?_).congr fun id entry _ => ?_
  · rintro id entry - ⟨hash, -, hget, -⟩ ⟨hash', -, hget', -⟩
    rw [hcache] at hget'
    cases h.owner _ _ hash hash' id hget hget'
  · simp only [Met, visited, hcache]
    constructor
    · rintro (hmet | hmet)
      · exact ⟨.query, hmet⟩
      · exact ⟨.infinite, hmet⟩
    · rintro ⟨kind, hmet⟩
      cases kind with
      | query => exact Or.inl hmet
      | infinite => exact Or.inr hmet

def Live (s : QueryClient N T) (id : ℕ) : Prop :=
  ∃ kind hash, (s.cacheOf kind).entries.get hash = some id

def Matched (format : NumberFormat N) (s : QueryClient N T) (keyOrPrefix : QueryKey N) (id : ℕ)
    (entry : QueryEntry N T) : Prop :=
  Live s id ∧ Matches format entry.key.value keyOrPrefix.value

/-- A cached key that is no array, but for JSON is the array of the prefix, while the key of another
entry of the cache is an array with the same first part. -/
def Hidden (format : NumberFormat N) (s : QueryClient N T) (keyOrPrefix : QueryKey N) : Prop :=
  ∃ kind part parts, keyOrPrefix.value.elements = some (part :: parts) ∧
    (∃ hash id entry, (s.cacheOf kind).entries.get hash = some id ∧
      s.entries[id]? = some entry ∧ entry.key.value.elements = none ∧
      SameKey format entry.key.value keyOrPrefix.value) ∧
    ∃ hash id entry item items, (s.cacheOf kind).entries.get hash = some id ∧
      s.entries[id]? = some entry ∧ entry.key.value.elements = some (item :: items) ∧
      SameKey format item part

theorem firstPart_eq_some_iff {key : KeyValue N} {keyParts : Option (List JSString)}
    {first : JSString} (h : hashQueryKeyParts format key = some keyParts) :
    firstPart keyParts = some first ↔ ∃ item items, key.elements = some (item :: items) ∧
      hashQueryKey format item = some first := by
  rcases hashQueryKeyParts_cases h with ⟨hnone, rfl⟩ | ⟨items, hashes, hitems, hhashes, rfl⟩
  · simp [firstPart, hnone]
  · have hparts := forall₂_of_hashParts hhashes
    cases hparts with
    | nil => simp [firstPart, hitems]
    | @cons item hash items hashes hhash =>
      simp [firstPart, hitems, hhash]

section Scan
variable {keyOrPrefix : QueryKey N} {prefixHash : JSString} {prefixParts : Option (List JSString)}

theorem matches_iff (h : s.Sound format) {kind : CacheKind} {hash : JSString} {id : ℕ}
    {entry : QueryEntry N T} (hget : (s.cacheOf kind).entries.get hash = some id)
    (hentry : s.entries[id]? = some entry)
    (hhash : hashQueryKey format keyOrPrefix.value = some prefixHash)
    (hparts : hashQueryKeyParts format keyOrPrefix.value = some prefixParts) :
    keyMatchesPrefix hash entry.keyParts prefixHash prefixParts ↔
      Matches format entry.key.value keyOrPrefix.value := by
  obtain ⟨e, he, hkeyHash, hkeyParts⟩ := (h.indexed kind).held hash id hget
  obtain rfl := Option.some.inj (hentry.symm.trans he)
  exact keyMatchesPrefix_iff entry.key.distinct keyOrPrefix.distinct hkeyHash hkeyParts hhash hparts

theorem mem_visited (h : s.Sound format) (hshown : ¬ Hidden format s keyOrPrefix) {kind : CacheKind}
    {hash : JSString} {id : ℕ} {entry : QueryEntry N T}
    (hget : (s.cacheOf kind).entries.get hash = some id) (hentry : s.entries[id]? = some entry)
    (hhash : hashQueryKey format keyOrPrefix.value = some prefixHash)
    (hparts : hashQueryKeyParts format keyOrPrefix.value = some prefixParts)
    (hmatch : keyMatchesPrefix hash entry.keyParts prefixHash prefixParts) :
    hash ∈ visited s kind prefixHash prefixParts := by
  obtain ⟨e, he, hkeyHash, hkeyParts⟩ := (h.indexed kind).held hash id hget
  obtain rfl := Option.some.inj (hentry.symm.trans he)
  unfold visited
  split
  · have heq : hash = prefixHash := by simpa [keyMatchesPrefix] using hmatch
    exact List.mem_singleton.mpr heq
  · rename_i parts
    split
    · exact InsertionMap.mem_keys_iff.mpr ⟨id, hget⟩
    · rename_i hashes hcandidates
      obtain ⟨first, hfirst, hhashes⟩ := Option.bind_eq_some_iff.mp hcandidates
      have hlisted {other : JSString} (hother : Listed (s.cacheOf kind).index first other) :
          other ∈ hashes.keys := by
        obtain ⟨others, hothers, hmem⟩ := hother
        obtain rfl := Option.some.inj (hhashes.symm.trans hothers)
        exact hmem
      cases hentryParts : entry.keyParts with
      | some keyParts =>
        rw [hentryParts] at hmatch
        have hprefix : parts <+: keyParts := List.isPrefixOf_iff_prefix.mp hmatch
        refine hlisted (((h.indexed kind).listed first hash).mpr ⟨id, entry, hget, hentry, ?_⟩)
        rw [hentryParts]
        obtain ⟨rest, rfl⟩ := hprefix
        cases parts with
        | nil => cases hfirst
        | cons part parts => exact hfirst
      | none =>
        -- An array key with this first part hides the key that is none.
        refine (hshown ?_).elim
        rw [hentryParts] at hmatch hkeyParts
        have heq : hash = prefixHash := by simpa [keyMatchesPrefix] using hmatch
        have hnone : entry.key.value.elements = none := by
          rcases hashQueryKeyParts_cases hkeyParts with ⟨hnone, -⟩ | ⟨_, _, _, _, hsome⟩
          · exact hnone
          · cases hsome
        have hsame := (hashQueryKey_eq_iff entry.key.distinct keyOrPrefix.distinct hkeyHash
          hhash).mp heq
        obtain ⟨part, rest, hprefixElements, hpartHash⟩ := (firstPart_eq_some_iff hparts).mp hfirst
        obtain ⟨other, hother⟩ := List.exists_mem_of_ne_nil _
          ((h.indexed kind).noEmptySet first hashes hhashes)
        obtain ⟨id', entry', hget', hentry', hfirst'⟩ :=
          ((h.indexed kind).listed first other).mp ⟨hashes, hhashes, hother⟩
        obtain ⟨e', he', -, hparts'⟩ := (h.indexed kind).held other id' hget'
        obtain rfl := Option.some.inj (hentry'.symm.trans he')
        obtain ⟨item, items, hitems, hitemHash⟩ := (firstPart_eq_some_iff hparts').mp hfirst'
        refine ⟨kind, part, rest, hprefixElements, ⟨hash, id, entry, hget, hentry, hnone, hsame⟩,
          other, id', entry', item, items, hget', hentry', hitems, ?_⟩
        have hitem : item.Distinct := (entry'.key.distinct.elements hitems).1
        have hpart : part.Distinct := (keyOrPrefix.distinct.elements hprefixElements).1
        exact (hashQueryKey_eq_iff hitem hpart hitemHash hpartHash).mp rfl

theorem not_met_of_hidden (prefixHash : JSString) (h : s.Sound format)
    (hhidden : Hidden format s keyOrPrefix)
    (hparts : hashQueryKeyParts format keyOrPrefix.value = some prefixParts) :
    ∃ id entry, s.entries[id]? = some entry ∧ Matched format s keyOrPrefix id entry ∧
      ∀ kind,
        ¬ Met s kind prefixHash prefixParts (visited s kind prefixHash prefixParts) id entry := by
  obtain ⟨kind, part, parts, helements, ⟨hash, id, entry, hget, hentry, hnone, hsame⟩,
    other, id', entry', item, items, hget', hentry', hitems, hitem⟩ := hhidden
  have hmatches : Matches format entry.key.value keyOrPrefix.value := by
    simpa only [Matches, hnone] using hsame
  refine ⟨id, entry, hentry, ⟨⟨kind, hash, hget⟩, hmatches⟩, ?_⟩
  rintro kind' ⟨hash', hmem, hgetHash, -⟩
  obtain rfl := h.owner kind kind' hash hash' id hget hgetHash
  obtain rfl := (h.indexed kind).hash_inj hget hgetHash
  -- The first part of the prefix is indexed, since the key of the other entry begins with it.
  obtain ⟨e', he', -, hparts'⟩ := (h.indexed kind).held other id' hget'
  obtain rfl := Option.some.inj (hentry'.symm.trans he')
  obtain ⟨first, hfirst⟩ : ∃ first, firstPart prefixParts = some first := by
    rcases hashQueryKeyParts_cases hparts with ⟨hnone, -⟩ | ⟨elements, hashes, hsome, hhashes, rfl⟩
    · rw [hnone] at helements
      cases helements
    · obtain rfl := Option.some.inj (helements.symm.trans hsome)
      cases forall₂_of_hashParts hhashes
      exact ⟨_, rfl⟩
  obtain ⟨part', parts', helements', hpartHash⟩ := (firstPart_eq_some_iff hparts).mp hfirst
  obtain ⟨rfl, rfl⟩ := List.cons.inj (Option.some.inj (helements.symm.trans helements'))
  have hfirst' : firstPart entry'.keyParts = some first := by
    rcases hashQueryKeyParts_cases hparts' with ⟨hnone, -⟩ | ⟨elements, hashes, hsome, hhashes, heq⟩
    · rw [hnone] at hitems
      cases hitems
    · obtain rfl := Option.some.inj (hitems.symm.trans hsome)
      cases forall₂_of_hashParts hhashes with
      | cons hitemHash =>
        have hdistinct : item.Distinct := (entry'.key.distinct.elements hitems).1
        have hpart : part.Distinct := (keyOrPrefix.distinct.elements helements).1
        rw [heq, ← (hashQueryKey_eq_iff hdistinct hpart hitemHash hpartHash).mpr hitem]
        rfl
  obtain ⟨hashes, hhashes, -⟩ :=
    ((h.indexed kind).listed first other).mpr ⟨id', entry', hget', hentry', hfirst'⟩
  have hcandidates : indexedCandidates (s.cacheOf kind).index prefixParts = some hashes := by
    rw [indexedCandidates, hfirst, Option.bind_some, hhashes]
  have hlisted : Listed (s.cacheOf kind).index first hash := by
    refine ⟨hashes, hhashes, ?_⟩
    unfold visited at hmem
    split at hmem
    · cases hfirst
    · simpa only [hcandidates] using hmem
  obtain ⟨i, e, hi, he, hfirstEntry⟩ := ((h.indexed kind).listed first hash).mp hlisted
  obtain rfl := Option.some.inj (hget.symm.trans hi)
  obtain rfl := Option.some.inj (hentry.symm.trans he)
  obtain ⟨e, he, -, hkeyParts⟩ := (h.indexed kind).held hash id hget
  obtain rfl := Option.some.inj (hentry.symm.trans he)
  obtain ⟨_, _, hsome, -⟩ := (firstPart_eq_some_iff hkeyParts).mp hfirstEntry
  rw [hnone] at hsome
  cases hsome

theorem invalidateQueries_scan_iff (h : s.Sound format)
    (hhash : hashQueryKey format keyOrPrefix.value = some prefixHash)
    (hparts : hashQueryKeyParts format keyOrPrefix.value = some prefixParts) :
    Marked s (s.invalidateQueries format keyOrPrefix) (Matched format s keyOrPrefix) ↔
      ¬ Hidden format s keyOrPrefix := by
  have hmarked := marked_invalidateQueries h hhash hparts
  constructor
  · intro hscan hhidden
    obtain ⟨id, entry, hentry, hmatched, hmissed⟩ := 
      not_met_of_hidden prefixHash h hhidden hparts
    have hmark := hscan.marked id entry hentry hmatched
    have hkept := hmarked.kept id entry hentry fun ⟨kind, hmet⟩ => hmissed kind hmet
    have hsame := congrArg QueryEntry.generation (Option.some.inj (hmark.symm.trans hkept))
    exact absurd hsame (Nat.succ_ne_self _)
  · intro hshown
    refine hmarked.congr fun id entry hentry => ?_
    constructor
    · rintro ⟨kind, hash, -, hget, hmatch⟩
      exact ⟨⟨kind, hash, hget⟩, (matches_iff h hget hentry hhash hparts).mp hmatch⟩
    · rintro ⟨⟨kind, hash, hget⟩, hmatches⟩
      have hmatch := (matches_iff h hget hentry hhash hparts).mpr hmatches
      exact ⟨kind, hash, mem_visited h hshown hget hentry hhash hparts hmatch, hget, hmatch⟩

end Scan

theorem cacheOf_insert (kind kind' : CacheKind) (key : QueryKey N)
    (keyParts : Option (List JSString)) (hash : JSString) :
    (s.insert kind key keyParts hash).cacheOf kind' =
      if kind' = kind then (s.cacheOf kind).insert keyParts hash s.entries.length
      else s.cacheOf kind' := by
  unfold QueryClient.insert markCapSweep
  cases kind <;> cases kind' <;> dsimp only <;> split_ifs <;> first | rfl | contradiction

theorem entries_insert (kind : CacheKind) (key : QueryKey N) (keyParts : Option (List JSString))
    (hash : JSString) : (s.insert kind key keyParts hash).entries =
      s.entries ++ [⟨key, keyParts, 0, none, false, 0⟩] := by
  unfold QueryClient.insert markCapSweep
  cases kind <;> dsimp only <;> split_ifs <;> rfl

theorem subscriptions_insert (kind : CacheKind) (key : QueryKey N)
    (keyParts : Option (List JSString)) (hash : JSString) :
    (s.insert kind key keyParts hash).subscriptions = s.subscriptions := by
  unfold QueryClient.insert markCapSweep
  cases kind <;> dsimp only <;> split_ifs <;> rfl

theorem upsert_cases {kind : CacheKind} {key : QueryKey N} {id : ℕ}
    (h : s.upsert format kind key = some (id, t)) : t = s ∨ ∃ hash keyParts,
      hashQueryKey format key.value = some hash ∧
      hashQueryKeyParts format key.value = some keyParts ∧
      (s.cacheOf kind).entries.get hash = none ∧ t = s.insert kind key keyParts hash := by
  obtain ⟨hash, hhash, h⟩ := Option.bind_eq_some_iff.mp h
  split at h
  · exact Or.inl (Prod.mk.inj (Option.some.inj h)).2.symm
  · rename_i hfresh
    obtain ⟨keyParts, hkeyParts, h⟩ := Option.bind_eq_some_iff.mp h
    exact Or.inr ⟨hash, keyParts, hhash, hkeyParts, hfresh,
      (Prod.mk.inj (Option.some.inj h)).2.symm⟩

theorem QueryClient.Sound.insert (h : s.Sound format) {kind : CacheKind} {key : QueryKey N}
    {keyParts : Option (List JSString)} {hash : JSString}
    (hfresh : (s.cacheOf kind).entries.get hash = none)
    (hhash : hashQueryKey format key.value = some hash)
    (hparts : hashQueryKeyParts format key.value = some keyParts) :
    (s.insert kind key keyParts hash).Sound format := by
  have hlt {kind : CacheKind} {hash : JSString} {id : ℕ}
      (hget : (s.cacheOf kind).entries.get hash = some id) : id < s.entries.length := by
    obtain ⟨entry, hentry, -⟩ := (h.indexed kind).held hash id hget
    exact (List.getElem?_eq_some_iff.mp hentry).1
  constructor
  case indexed =>
    intro kind'
    rw [cacheOf_insert, entries_insert]
    split_ifs
    · exact (h.indexed kind).insert hfresh hhash hparts
    · exact (h.indexed kind').sameKeys (sameKeys_append _)
  case owner =>
    intro kind₁ kind₂ hash₁ hash₂ id hget₁ hget₂
    rw [cacheOf_insert] at hget₁ hget₂
    split_ifs at hget₁ hget₂ with h₁ h₂ h₂
    · exact h₁.trans h₂.symm
    · rw [Cache.insert, InsertionMap.get_set] at hget₁
      split_ifs at hget₁
      · obtain rfl := Option.some.inj hget₁
        exact absurd (hlt hget₂) (lt_irrefl _)
      · exact h₁.trans (h.owner _ _ _ _ id hget₁ hget₂)
    · rw [Cache.insert, InsertionMap.get_set] at hget₂
      split_ifs at hget₂
      · obtain rfl := Option.some.inj hget₂
        exact absurd (hlt hget₁) (lt_irrefl _)
      · exact (h.owner _ _ _ _ id hget₁ hget₂).trans h₂.symm
    · exact h.owner _ _ _ _ id hget₁ hget₂

theorem QueryClient.Sound.upsert (h : s.Sound format) {kind : CacheKind} {key : QueryKey N} {id : ℕ}
    (hupsert : s.upsert format kind key = some (id, t)) : t.Sound format := by
  rcases upsert_cases hupsert with rfl | ⟨hash, keyParts, hhash, hparts, hfresh, rfl⟩
  · exact h
  · exact h.insert hfresh hhash hparts

theorem QueryClient.Sound.modify (h : s.Sound format) (id : ℕ) {f : QueryEntry N T → QueryEntry N T}
    (hentries : t.entries = s.entries.modify id f)
    (hcaches : ∀ kind, t.cacheOf kind = s.cacheOf kind)
    (hkey : ∀ entry, (f entry).key = entry.key)
    (hparts : ∀ entry, (f entry).keyParts = entry.keyParts) : t.Sound format :=
  h.of_sameKeys hcaches (hentries ▸ sameKeys_modify id hkey hparts)

section Timed
variable [LinearOrder T] [OrderTop T]

theorem cacheOf_sweep (kind : CacheKind) (now : T) :
    (s.sweep now).cacheOf kind = (sweepEntries s.entries s.max now (s.cacheOf kind)).1 := by
  cases kind <;> rfl

theorem Swept.get_of_get {max : ℕ∞} {expired idle : ℕ → Bool} {c c' : Cache}
    (h : Swept max expired idle c c') {hash : JSString} {id : ℕ}
    (hget : c'.entries.get hash = some id) : c.entries.get hash = some id := by
  obtain ⟨front, back, hsplit, hleft, -⟩ := h
  rw [InsertionMap.get_eq_some_iff] at hget ⊢
  have hmem : (hash, id) ∈ front ++ back := by
    rw [hleft] at hget
    exact (List.filter_sublist.append (List.Sublist.refl back)).mem hget
  exact List.mem_of_mem_filter (hsplit ▸ hmem)

theorem QueryClient.Sound.sweep (h : s.Sound format) (now : T) : (s.sweep now).Sound format := by
  have hspec (kind : CacheKind) := sweepEntries_spec (h.indexed kind) s.max now
  constructor
  case indexed =>
    intro kind
    rw [cacheOf_sweep]
    exact (hspec kind).1
  case owner =>
    intro kind kind' hash hash' id hget hget'
    rw [cacheOf_sweep] at hget hget'
    exact h.owner kind kind' hash hash' id ((hspec kind).2.get_of_get hget)
      ((hspec kind').2.get_of_get hget')

variable [Add T]

omit [OrderTop T] in
theorem QueryClient.Sound.unsubscribe (h : s.Sound format) (i id : ℕ) (now : T) :
    (s.unsubscribe i id now).Sound format := by
  have hclosed : ({ s with
      entries := s.entries.modify id fun entry =>
        { entry with subscribers := entry.subscribers - 1 }
      subscriptions := s.subscriptions.set i (id, false) } : QueryClient N T).Sound format :=
    h.modify id rfl (fun kind => by cases kind <;> rfl) (fun _ => rfl) fun _ => rfl
  unfold QueryClient.unsubscribe
  dsimp only
  split
  · exact hclosed
  · split_ifs
    · exact hclosed.modify id rfl (fun kind => by cases kind <;> rfl) (fun _ => rfl) fun _ => rfl
    · exact hclosed

theorem QueryClient.Sound.step {e : ClientEvent N T} (h : s.Sound format)
    (hstep : clientStep format s e = some t) : t.Sound format := by
  cases e with
  | query kind key due sweptAt =>
    obtain rfl := Option.some.inj hstep
    unfold QueryClient.query
    have hswept : (if s.sweepDue due then s.sweep sweptAt else s).Sound format := by
      split_ifs
      · exact h.sweep sweptAt
      · exact h
    dsimp only
    split
    · exact hswept
    · rename_i hupsert
      exact hswept.upsert hupsert
  | setQueryData key =>
    obtain rfl := Option.some.inj hstep
    unfold QueryClient.setQueryData
    split
    · exact h
    · rename_i id u hupsert
      exact (h.upsert hupsert).modify id rfl (fun kind => by cases kind <;> rfl) (fun _ => rfl)
        fun _ => rfl
  | hydrate key =>
    obtain rfl := Option.some.inj hstep
    unfold QueryClient.hydrate
    split
    · exact h
    · rename_i hupsert
      exact h.upsert hupsert
  | subscribe id =>
    simp only [clientStep] at hstep
    split_ifs at hstep
    obtain rfl := Option.some.inj hstep
    exact h.modify id rfl (fun kind => by cases kind <;> rfl) (fun _ => rfl) fun _ => rfl
  | unsubscribe i now =>
    simp only [clientStep] at hstep
    split at hstep
    · cases hstep
    · exact Option.some.inj hstep ▸ h.unsubscribe i _ now
  | invalidateQueries keyOrPrefix =>
    obtain rfl := Option.some.inj hstep
    cases hhash : hashQueryKey format keyOrPrefix.value with
    | none =>
      have hsame : s.invalidateQueries format keyOrPrefix = s := by
        simp only [QueryClient.invalidateQueries, hhash]
      rwa [hsame]
    | some prefixHash =>
      cases hparts : hashQueryKeyParts format keyOrPrefix.value with
      | none =>
        have hsame : s.invalidateQueries format keyOrPrefix = s := by
          simp only [QueryClient.invalidateQueries, hhash, hparts]
        rwa [hsame]
      | some prefixParts => exact h.marked (marked_invalidateQueries h hhash hparts)
  | touched id invalidated generation =>
    obtain rfl := Option.some.inj hstep
    exact h.modify id rfl (fun kind => by cases kind <;> rfl) (fun _ => rfl) fun _ => rfl

end Timed

theorem sound_createClient [LE T] [OrderTop T] (gcTime : T) (max : ℕ∞) :
    (create gcTime max : QueryClient N T).Sound format where
  indexed kind := by cases kind <;> exact indexed_empty
  owner kind kind' hash hash' id hget := by cases kind <;> cases hget

def subscribed (s : QueryClient N T) (id : ℕ) : Bool := s.subscriptions.contains (id, true)

structure Tallied (s : QueryClient N T) : Prop where
  known : ∀ sub ∈ s.subscriptions, sub.1 < s.entries.length
  counted : ∀ id entry, s.entries[id]? = some entry →
    entry.subscribers = (s.subscriptions.count (id, true) : ℤ)

def EndsOnce (s : QueryClient N T) : ClientEvent N T → Prop
  | .unsubscribe i _ => ∃ id, s.subscriptions[i]? = some (id, true)
  | _ => True

theorem Tallied.of_same (h : Tallied s) (hsubs : t.subscriptions = s.subscriptions)
    (hlength : t.entries.length = s.entries.length)
    (hsame : ∀ (id : ℕ) entry, t.entries[id]? = some entry →
      ∃ entry', s.entries[id]? = some entry' ∧ entry.subscribers = entry'.subscribers) :
    Tallied t where
  known sub hsub := by
    rw [hlength]
    exact h.known sub (hsubs ▸ hsub)
  counted id entry hentry := by
    obtain ⟨entry', hentry', heq⟩ := hsame id entry hentry
    rw [heq, hsubs, h.counted id entry' hentry']

theorem Tallied.modify (h : Tallied s) (id : ℕ) {f : QueryEntry N T → QueryEntry N T}
    (hsubs : t.subscriptions = s.subscriptions) (hentries : t.entries = s.entries.modify id f)
    (hf : ∀ entry, (f entry).subscribers = entry.subscribers) : Tallied t := by
  refine h.of_same hsubs (hentries ▸ List.length_modify ..) fun i entry hentry => ?_
  rw [hentries, List.getElem?_modify, Option.map_eq_map, Option.map_eq_some_iff] at hentry
  obtain ⟨entry', hentry', rfl⟩ := hentry
  refine ⟨entry', hentry', ?_⟩
  split_ifs
  · exact hf entry'
  · rfl

theorem Tallied.upsert (h : Tallied s) {kind : CacheKind} {key : QueryKey N} {id : ℕ}
    (hupsert : s.upsert format kind key = some (id, t)) : Tallied t := by
  rcases upsert_cases hupsert with rfl | ⟨hash, keyParts, -, -, -, rfl⟩
  · exact h
  · constructor
    case known =>
      intro sub hsub
      rw [subscriptions_insert] at hsub
      rw [entries_insert, List.length_append]
      exact (h.known sub hsub).trans_le (Nat.le_add_right _ _)
    case counted =>
      intro i entry hentry
      rw [entries_insert] at hentry
      rw [subscriptions_insert]
      rcases lt_trichotomy i s.entries.length with hlt | rfl | hgt
      · rw [List.getElem?_append_left hlt] at hentry
        exact h.counted i entry hentry
      · rw [List.getElem?_concat_length] at hentry
        obtain rfl := Option.some.inj hentry
        rw [eq_comm, Nat.cast_eq_zero, List.count_eq_zero]
        exact fun hmem => lt_irrefl _ (h.known _ hmem)
      · rw [List.getElem?_eq_none (by simpa using Nat.succ_le_of_lt hgt)] at hentry
        cases hentry

theorem Tallied.marked (h : Tallied s) (hmarked : Marked s t P) : Tallied t := by
  refine h.of_same (by rw [hmarked.rest]) hmarked.length fun id entry hentry => ?_
  have hlt : id < s.entries.length := hmarked.length ▸ (List.getElem?_eq_some_iff.mp hentry).1
  have hold : s.entries[id]? = some s.entries[id] := List.getElem?_eq_getElem hlt
  by_cases hP : P id s.entries[id]
  · obtain rfl := Option.some.inj (hentry.symm.trans (hmarked.marked id _ hold hP))
    exact ⟨_, hold, rfl⟩
  · obtain rfl := Option.some.inj (hentry.symm.trans (hmarked.kept id _ hold hP))
    exact ⟨_, hold, rfl⟩

theorem Tallied.subscribe (h : Tallied s) {id : ℕ} (hid : id < s.entries.length) :
    Tallied (s.subscribe id) := by
  constructor
  case known =>
    intro sub hsub
    rw [QueryClient.subscribe, List.length_modify]
    rcases List.mem_append.mp hsub with hsub | hsub
    · exact h.known sub hsub
    · rw [List.mem_singleton.mp hsub]
      exact hid
  case counted =>
    intro i entry hentry
    rw [QueryClient.subscribe, List.getElem?_modify, Option.map_eq_map,
      Option.map_eq_some_iff] at hentry
    obtain ⟨entry', hentry', rfl⟩ := hentry
    have hold := h.counted i entry' hentry'
    rw [QueryClient.subscribe, List.count_append, List.count_singleton]
    by_cases hi : id = i
    · simp [hi, hold]
    · simp [hi, hold]

theorem Tallied.close (h : Tallied s) {i id : ℕ} (hopen : s.subscriptions[i]? = some (id, true)) :
    Tallied { s with
      entries := s.entries.modify id fun entry =>
        { entry with subscribers := entry.subscribers - 1 }
      subscriptions := s.subscriptions.set i (id, false) } := by
  obtain ⟨hlt, hget⟩ := List.getElem?_eq_some_iff.mp hopen
  have hmem : (id, true) ∈ s.subscriptions := List.mem_of_getElem? hopen
  constructor
  case known =>
    intro sub hsub
    rw [List.length_modify]
    rcases List.mem_or_eq_of_mem_set hsub with hsub | rfl
    · exact h.known sub hsub
    · exact (h.known (id, true) hmem : id < s.entries.length)
  case counted =>
    intro j entry hentry
    rw [List.getElem?_modify, Option.map_eq_map, Option.map_eq_some_iff] at hentry
    obtain ⟨entry', hentry', rfl⟩ := hentry
    have hold := h.counted j entry' hentry'
    rw [List.count_set hlt, hget]
    by_cases hj : id = j
    · subst hj
      have hpos := List.count_pos_iff.mpr hmem
      simp [hold]
      omega
    · simp [hj, hold]

section Timed
variable [LinearOrder T] [OrderTop T] [Add T]

theorem Tallied.step {e : ClientEvent N T} (h : Tallied s) (hsound : s.Sound format)
    (honce : EndsOnce s e) (hstep : clientStep format s e = some t) : Tallied t := by
  cases e with
  | query kind key due sweptAt =>
    obtain rfl := Option.some.inj hstep
    unfold QueryClient.query
    have hswept : Tallied (if s.sweepDue due then s.sweep sweptAt else s) := by
      split_ifs
      · exact ⟨h.known, h.counted⟩
      · exact h
    dsimp only
    split
    · exact hswept
    · rename_i hupsert
      exact hswept.upsert hupsert
  | setQueryData key =>
    obtain rfl := Option.some.inj hstep
    unfold QueryClient.setQueryData
    split
    · exact h
    · rename_i id u hupsert
      exact (h.upsert hupsert).modify id rfl rfl fun _ => rfl
  | hydrate key =>
    obtain rfl := Option.some.inj hstep
    unfold QueryClient.hydrate
    split
    · exact h
    · rename_i hupsert
      exact h.upsert hupsert
  | subscribe id =>
    simp only [clientStep] at hstep
    split_ifs at hstep with hid
    exact Option.some.inj hstep ▸ h.subscribe hid
  | unsubscribe i now =>
    obtain ⟨id, hopen⟩ := honce
    simp only [clientStep, hopen] at hstep
    obtain rfl := Option.some.inj hstep
    unfold QueryClient.unsubscribe
    dsimp only
    split
    · exact h.close hopen
    · split_ifs
      · exact (h.close hopen).modify id rfl rfl fun _ => rfl
      · exact h.close hopen
  | invalidateQueries keyOrPrefix =>
    obtain rfl := Option.some.inj hstep
    cases hhash : hashQueryKey format keyOrPrefix.value with
    | none =>
      have hsame : s.invalidateQueries format keyOrPrefix = s := by
        simp only [QueryClient.invalidateQueries, hhash]
      rwa [hsame]
    | some prefixHash =>
      cases hparts : hashQueryKeyParts format keyOrPrefix.value with
      | none =>
        have hsame : s.invalidateQueries format keyOrPrefix = s := by
          simp only [QueryClient.invalidateQueries, hhash, hparts]
        rwa [hsame]
      | some prefixParts => exact h.marked (marked_invalidateQueries hsound hhash hparts)
  | touched id invalidated generation =>
    obtain rfl := Option.some.inj hstep
    exact h.modify id rfl rfl fun _ => rfl

theorem sound_counted_run {gcTime : T} {max : ℕ∞} {es : List (ClientEvent N T)}
    (hrun : Runs.run (clientStep format) (create gcTime max) es = some s)
    (honce : Runs.Along (clientStep format) EndsOnce (create gcTime max) es) :
    s.Sound format ∧ Tallied s := by
  have hstep (s : QueryClient N T) (e : ClientEvent N T) (t : QueryClient N T)
      (hs : s.Sound format ∧ Tallied s) (honce : EndsOnce s e)
      (hstep : clientStep format s e = some t) : t.Sound format ∧ Tallied t :=
    ⟨hs.1.step hstep, hs.2.step hs.1 honce hstep⟩
  have hreached := Runs.run_invariant_along hstep hrun honce
    ⟨sound_createClient gcTime max, ⟨fun _ => nofun, fun _ _ => nofun⟩⟩
  exact hreached

omit [LinearOrder T] [OrderTop T] [Add T] in
theorem idle_eq (h : Tallied s) {id : ℕ} {entry : QueryEntry N T}
    (hentry : s.entries[id]? = some entry) : idle s.entries id = !subscribed s id := by
  rw [idle, hentry, Option.any_some, h.counted id entry hentry, subscribed, Bool.eq_iff_iff,
    decide_eq_true_iff, Nat.cast_eq_zero, List.count_eq_zero]
  simp

def pastGc (s : QueryClient N T) (now : T) (id : ℕ) : Bool :=
  s.entries[id]?.any fun entry => entry.gcAt.any fun gcAt => decide (gcAt ≤ now)

theorem Swept.congr {max : ℕ∞} {expired idle expired' idle' : ℕ → Bool} {c c' : Cache}
    (h : Swept max expired idle c c')
    (hexpired : ∀ e ∈ c.entries.entries, expired' e.2 = expired e.2)
    (hidle : ∀ e ∈ c.entries.entries, idle' e.2 = idle e.2) : Swept max expired' idle' c c' := by
  obtain ⟨front, back, hsplit, hleft, hmax⟩ := h
  have hfront {e : JSString × ℕ} (he : e ∈ front) : e ∈ c.entries.entries :=
    List.mem_of_mem_filter (hsplit ▸ List.mem_append_left back he)
  refine ⟨front, back, ?_, ?_, ?_⟩
  · rw [← hsplit]
    exact List.filter_congr fun e he => by rw [hexpired e he]
  · rw [hleft]
    exact congrArg (· ++ back) (List.filter_congr fun e he => by rw [hidle e (hfront he)])
  · rintro ⟨e, he, hgone⟩
    exact hmax ⟨e, he, hidle e (hfront he) ▸ hgone⟩

omit [Add T] in
theorem swept_of_counted (hsound : s.Sound format) (hcounted : Tallied s) (now : T)
    (kind : CacheKind) : Swept s.max (fun id => !subscribed s id && pastGc s now id)
      (fun id => !subscribed s id) (s.cacheOf kind) ((s.sweep now).cacheOf kind) := by
  have hidle {e : JSString × ℕ} (he : e ∈ (s.cacheOf kind).entries.entries) :
      idle s.entries e.2 = !subscribed s e.2 := by
    obtain ⟨entry, hentry, -⟩ :=
      (hsound.indexed kind).held e.1 e.2 (InsertionMap.get_eq_some_iff.mpr he)
    exact idle_eq hcounted hentry
  rw [cacheOf_sweep]
  refine (sweepEntries_spec (hsound.indexed kind) s.max now).2.congr (fun e he => ?_) fun e he =>
    (hidle he).symm
  rw [← hidle he]
  unfold idle pastGc expired
  cases s.entries[e.2]? <;> rfl

end Timed

/-- In every state that a run reaches, if it ends no subscription twice, each index holds exactly
the hashes of what is cached, a sweep removes what nobody subscribes to, and an invalidation marks
what a scan would exactly when no matching entry is hidden. -/
theorem invalidateQueries_exact_iff [LinearOrder T] [OrderTop T] [Add T] (gcTime : T) (max : ℕ∞)
    (es : List (ClientEvent N T)) (s : QueryClient N T)
    (hrun : Runs.run (clientStep format) (create gcTime max) es = some s)
    (honce : Runs.Along (clientStep format) EndsOnce (create gcTime max) es) :
    (∀ kind, (s.cacheOf kind).Indexed format s.entries ∧
      ∀ now, Swept s.max (fun id => !subscribed s id && pastGc s now id)
        (fun id => !subscribed s id) (s.cacheOf kind) ((s.sweep now).cacheOf kind)) ∧
    ∀ keyOrPrefix prefixHash prefixParts,
      hashQueryKey format keyOrPrefix.value = some prefixHash →
      hashQueryKeyParts format keyOrPrefix.value = some prefixParts →
      (Marked s (s.invalidateQueries format keyOrPrefix) (Matched format s keyOrPrefix) ↔
        ¬ Hidden format s keyOrPrefix) := by
  obtain ⟨hsound, hcounted⟩ := sound_counted_run hrun honce
  constructor
  · intro kind
    exact ⟨hsound.indexed kind, fun now => swept_of_counted hsound hcounted now kind⟩
  · intro keyOrPrefix prefixHash prefixParts hhash hparts
    exact invalidateQueries_scan_iff hsound hhash hparts

def todos : QueryKey ℕ := ⟨.array [.string (js "todos")], trivial, trivial⟩

def todo : QueryKey ℕ := ⟨.array [.string (js "todos"), .number 1], trivial, trivial, trivial⟩

/-- An object with a `toJSON` that answers `["todos"]`. -/
def todoList : QueryKey ℕ :=
  ⟨.toJSON (.object []) todos.value, ⟨List.nodup_nil, trivial⟩, todos.distinct⟩

def todoClient : QueryClient ℕ ℕ∞ :=
  ((create ⊤ ⊤).query JSON.counters .query todoList 0 0).query JSON.counters .query todo 0 0

theorem todoClient_run : Runs.run (clientStep JSON.counters) (create ⊤ ⊤)
    [.query .query todoList 0 0, .query .query todo 0 0] = some todoClient := rfl

theorem invalidateQueries_exact_iff_todoClient :
    Marked todoClient (todoClient.invalidateQueries JSON.counters todo)
        (Matched JSON.counters todoClient todo) ↔ ¬ Hidden JSON.counters todoClient todo :=
  (invalidateQueries_exact_iff ⊤ ⊤ _ _ todoClient_run ⟨trivial, trivial, trivial⟩).2 todo _ _
    rfl rfl

/-- The object's query is not marked, though it is the query of the key that is invalidated. -/
theorem invalidateQueries_not_exact : ¬ ∀ (es : List (ClientEvent ℕ ℕ∞)) (s : QueryClient ℕ ℕ∞),
    Runs.run (clientStep JSON.counters) (create ⊤ ⊤) es = some s → ∀ keyOrPrefix : QueryKey ℕ,
      (hashQueryKey JSON.counters keyOrPrefix.value).isSome →
        Marked s (s.invalidateQueries JSON.counters keyOrPrefix)
          (Matched JSON.counters s keyOrPrefix) := by
  intro h
  have hexact := h _ todoClient todoClient_run todos rfl
  have hentry : todoClient.entries[0]? = some ⟨todoList, none, 0, none, false, 0⟩ := rfl
  have hkept : (todoClient.invalidateQueries JSON.counters todos).entries[0]? =
      some ⟨todoList, none, 0, none, false, 0⟩ := rfl
  have hsame : SameKey JSON.counters todoList.value todos.value :=
    (hashQueryKey_eq_iff todoList.distinct todos.distinct rfl rfl).mp rfl
  have hmark := hexact.marked 0 _ hentry ⟨⟨.query, js "[\"todos\"]", rfl⟩, hsame⟩
  cases hkept.symm.trans hmark

end Nifra.Query
